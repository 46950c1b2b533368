import Nsblast.Rest.GenericRecords

/-!
# Building bodies one after another

The table of the handlers in `RestApi::build` is made once in a process, by the first call
whose ttl can be read. The handler of `rr` in it refers to the lambda `addRr` of that call,
which is gone when the call is over. What a later call reads there is not a value: it is an
outcome of its own, behind which nothing is known about the call.

The handlers for the items with the name of a type are given, as before, and `finish` is
left out. They are not concerned, since they read the ttl they are called with.
-/

namespace Nsblast.RestBody

open List
open OptionT (lift mk)

/-- Code that ends with `none` if it has read an object that does not live any more. -/
abbrev Living (α : Type) : Type := OptionT Handled α

section code

variable (lives : Bool) (typed : String → Handler) (fqdn : Name) (ttl : UInt32)

/-- An element of `rr`. The lambda is read when it is called. -/
def rrElementIn (sb : Wire.StorageBuilder) : Value → Living Wire.StorageBuilder
  | .object members => do
      let fields ← lift (members.foldlM readField {})
      if fields.type = 0 then
        lift (badRequest ("Invalid or missing type in rr in " ++ shown fqdn))
      else do
        let captured ← mk (pure (if lives then some ttl else none))
        lift (addRr captured sb fqdn fields.type fields.rdata)
  | _ => lift (badRequest "Json element 'rr' must be an array of objects(s)")

/-- The handler of `rr`. -/
def handleRrIn (sb : Wire.StorageBuilder) : Value → Living Wire.StorageBuilder
  | .array values => values.foldlM (rrElementIn lives fqdn ttl) sb
  | _ => lift (badRequest "Json element 'rr' must be an array of objects(s)")

/-- A member of the body. No other handler than the one of `rr` reads what the table keeps. -/
def buildMemberIn (sb : Wire.StorageBuilder) (obj : String × Value) : Living Wire.StorageBuilder :=
  if obj.1 = "rr" then mk (converting obj.1 (handleRrIn lives fqdn ttl sb obj.2).run)
  else lift (buildMember ⟨ttl, typed⟩ fqdn ttl sb obj)

end code

/-- A call of `build`. -/
structure BuildCall where
  fqdn : Name
  ttl : UInt32
  sb : Wire.StorageBuilder
  json : Value

section calls

variable (typed : String → Handler)

/-- `build` in the call of a number. The table was made by the call of the number `table`, or is
made now. -/
def BuildCall.run (table : Option Nat) (number : Nat) (call : BuildCall) :
    Handled (Option Wire.StorageBuilder) := do
  let jttl ← plain (getTtl call.json)
  let members ← plain call.json.asObject
  let lives := table.getD number == number
  (members.foldlM (buildMemberIn lives typed call.fqdn (jttl.getD call.ttl)) call.sb).run

/-- The call that made the table, behind another call. -/
def BuildCall.madeBy (table : Option Nat) (number : Nat) (call : BuildCall) : Option Nat :=
  if (getTtl call.json).isOk then some (table.getD number) else table

/-- The calls of a process with their outcomes, from a call of some number on. -/
def outcomes : Option Nat → Nat → List BuildCall →
    List (BuildCall × Handled (Option Wire.StorageBuilder))
  | _, _, [] => []
  | table, number, call :: rest =>
      (call, call.run typed table number) :: outcomes (call.madeBy table number) (number + 1) rest

/-- The ttl of a call, once it is read. -/
def BuildCall.ownTtl (call : BuildCall) : UInt32 :=
  match getTtl call.json with
  | .ok jttl => jttl.getD call.ttl
  | _ => call.ttl

/-- The call reads no object that is gone, and the handler of `rr` gives its records the ttl of
the call. -/
def LiveCall (made : BuildCall × Handled (Option Wire.StorageBuilder)) : Prop :=
  made.2.run ≠ .ok (.ok none) ∧
    made.2 = some <$> build ⟨made.1.ownTtl, typed⟩ made.1.fqdn made.1.ttl made.1.sb made.1.json

/-- A loop comes to an element for which something holds. -/
def Comes {σ τ : Type} (turn : σ → τ → Handled σ) (holds : σ → τ → Prop) : σ → List τ → Prop
  | _, [] => False
  | state, element :: rest =>
      holds state element ∨
        ∃ next, (turn state element).run = .ok (.ok next) ∧ Comes turn holds next rest

/-- An object of `rr` for which `addRr` is called. -/
def HasType : Value → Prop
  | .object members => ∃ fields, (members.foldlM readField {}).run = .ok (.ok fields) ∧ fields.type ≠ 0
  | _ => False

/-- An item `rr` whose handler comes to such an object. -/
def HasTyped (fqdn : Name) (ttl : UInt32) (sb : Wire.StorageBuilder) (obj : String × Value) :
    Prop :=
  obj.1 = "rr" ∧ match obj.2 with
    | .array values => Comes (rrElement ttl fqdn) (fun _ => HasType) sb values
    | _ => False

/-- The call comes to `addRr` in the handler of `rr`. -/
def BuildCall.ReachesAddRr (call : BuildCall) : Prop :=
  (getTtl call.json).isOk ∧ match call.json with
    | .object members => Comes (buildMember ⟨call.ownTtl, typed⟩ call.fqdn call.ownTtl)
        (HasTyped call.fqdn call.ownTtl) call.sb members
    | _ => False

/-- The calls behind the one that made the table. -/
def behindTable (calls : List BuildCall) : List BuildCall :=
  (calls.dropWhile fun call => !(getTtl call.json).isOk).drop 1

end calls

section follows

variable {gone : Prop} {α β σ τ : Type}

/-- Code that reads an object, beside the code that has its value. If the object is gone and
the code gets so far, it is read; otherwise both do the same. -/
def Follows (gone : Prop) (living : Living α) (handled : Handled α) (reads : Prop) : Prop :=
  (gone ∧ reads) ∧ living.run.run = .ok (.ok none) ∨
    ¬ (gone ∧ reads) ∧ living = lift handled

theorem follows_lift (handled : Handled α) : Follows gone (lift handled) handled False :=
  Or.inr ⟨fun both => both.2, rfl⟩

variable {living : Living α} {handled : Handled α} {reads : Prop}

/-- Code that does not return does not get to what follows. -/
theorem Follows.bind {next : α → Living β} {nextHandled : α → Handled β} {nextReads : α → Prop}
    (first : Follows gone living handled reads)
    (later : ∀ value, Follows gone (next value) (nextHandled value) (nextReads value)) :
    Follows gone (living >>= next) (handled >>= nextHandled)
      (reads ∨ ∃ value, handled.run = .ok (.ok value) ∧ nextReads value) := by
  rcases first with ⟨both, isRead⟩ | ⟨not, rfl⟩
  · obtain rfl : living = mk (pure none) := isRead
    exact Or.inl ⟨⟨both.1, Or.inl both.2⟩, rfl⟩
  · rcases handled with (response | value) | what | _ | _ | _
    case ok.ok =>
      rcases later value with ⟨both, isRead⟩ | ⟨notLater, same⟩
      · exact Or.inl ⟨⟨both.1, Or.inr ⟨value, rfl, both.2⟩⟩, isRead⟩
      · refine Or.inr ⟨?_, same⟩
        rintro ⟨isGone, here | ⟨_, ⟨⟩, here⟩⟩
        · exact not ⟨isGone, here⟩
        · exact notLater ⟨isGone, here⟩
    all_goals
      refine Or.inr ⟨?_, rfl⟩
      rintro ⟨isGone, here | ⟨_, ⟨⟩, _⟩⟩
      exact not ⟨isGone, here⟩

theorem Follows.foldlM {living : σ → τ → Living σ} {handled : σ → τ → Handled σ}
    {reads : σ → τ → Prop}
    (turns : ∀ state element, Follows gone (living state element) (handled state element)
      (reads state element)) (elements : List τ) (state : σ) :
    Follows gone (elements.foldlM living state) (elements.foldlM handled state)
      (Comes handled reads state elements) := by
  induction elements generalizing state with
  | nil => exact follows_lift (pure state)
  | cons element rest ih =>
    rw [foldlM_cons, foldlM_cons]
    exact (turns state element).bind ih

/-- The `catch` does not look at what was read. -/
theorem Follows.converting (follows : Follows gone living handled reads) (key : String) :
    Follows gone (mk (converting key living.run)) (converting key handled) reads := by
  rcases follows with ⟨both, isRead⟩ | ⟨not, rfl⟩
  · obtain rfl : living = mk (pure none) := isRead
    exact Or.inl ⟨both, rfl⟩
  · refine Or.inr ⟨not, ?_⟩
    rcases handled with (response | value) | what | _ | _ | _ <;> rfl

end follows

section reading

variable (lives : Bool) (typed : String → Handler) (fqdn : Name) (ttl : UInt32)
  (sb : Wire.StorageBuilder)

theorem rrElementIn_follows (v : Value) :
    Follows (lives = false) (rrElementIn lives fqdn ttl sb v) (rrElement ttl fqdn sb v) (HasType v) := by
  cases v with
  | object members =>
    have reading (fields : RrFields) : Follows (lives = false)
        (if fields.type = 0 then
          lift (badRequest ("Invalid or missing type in rr in " ++ shown fqdn))
        else do
          let captured ← mk (pure (if lives then some ttl else none))
          lift (addRr captured sb fqdn fields.type fields.rdata))
        (if fields.type = 0 then badRequest ("Invalid or missing type in rr in " ++ shown fqdn)
          else addRr ttl sb fqdn fields.type fields.rdata) (fields.type ≠ 0) := by
      by_cases typeless : fields.type = 0
      · rw [if_pos typeless, if_pos typeless]
        exact Or.inr ⟨fun both => both.2 typeless, rfl⟩
      · rw [if_neg typeless, if_neg typeless]
        cases lives with
        | false => exact Or.inl ⟨⟨rfl, typeless⟩, rfl⟩
        | true => exact Or.inr ⟨nofun, rfl⟩
    have both := (follows_lift (members.foldlM readField {})).bind reading
    rw [false_or] at both
    exact both
  | _ => exact follows_lift _

theorem buildMemberIn_follows (obj : String × Value) :
    Follows (lives = false) (buildMemberIn lives typed fqdn ttl sb obj)
      (buildMember ⟨ttl, typed⟩ fqdn ttl sb obj) (HasTyped fqdn ttl sb obj) := by
  obtain ⟨key, v⟩ := obj
  rw [buildMemberIn, HasTyped]
  by_cases isRr : key = "rr"
  · subst isRr
    simp only [true_and]
    have handled : Follows (lives = false) (handleRrIn lives fqdn ttl sb v) (handleRr ttl fqdn sb v)
        (match v with
          | .array values => Comes (rrElement ttl fqdn) (fun _ => HasType) sb values
          | _ => False) := by
      cases v with
      | array values => exact Follows.foldlM (rrElementIn_follows lives fqdn ttl) values sb
      | _ => exact follows_lift _
    exact handled.converting "rr"
  · rw [if_neg isRr]
    exact Or.inr ⟨fun both => isRr both.2.1, rfl⟩

end reading

variable (typed : String → Handler)

/-- A call uses live data just if it made the table or does not come to `addRr`. -/
theorem liveCall_iff (table : Option Nat) (number : Nat) (call : BuildCall) :
    LiveCall typed (call, call.run typed table number) ↔
      ¬ ((table.getD number == number) = false ∧ call.ReachesAddRr typed) := by
  have follows : Follows ((table.getD number == number) = false)
      (mk (call.run typed table number))
      (build ⟨call.ownTtl, typed⟩ call.fqdn call.ttl call.sb call.json)
      (call.ReachesAddRr typed) := by
    obtain ⟨fqdn, ttl, sb, json⟩ := call
    simp only [BuildCall.run, build, BuildCall.ReachesAddRr, BuildCall.ownTtl]
    rcases getTtl json with jttl | what | _ | _ | _
    case ok =>
      cases json with
      | object members =>
        simp only [Run.isOk, true_and]
        exact Follows.foldlM (buildMemberIn_follows _ typed fqdn (jttl.getD ttl)) members sb
      | _ => exact Or.inr ⟨fun both => both.2.2, rfl⟩
    all_goals exact Or.inr ⟨by simp [Run.isOk], rfl⟩
  rcases follows with ⟨both, isRead⟩ | ⟨not, same⟩
  · exact ⟨fun live => absurd isRead live.1, fun not => absurd both not⟩
  · refine ⟨fun _ => not, fun _ => ⟨?_, same⟩⟩
    rw [show call.run typed table number = (lift _ : Living _).run from same]
    generalize build _ _ _ _ _ = built
    rcases built with (response | value) | what | _ | _ | _ <;> rintro ⟨⟩

/-- Behind the call that made the table. -/
theorem outcomes_behind {maker number : Nat} (before : maker < number) (calls : List BuildCall) :
    (∀ made ∈ outcomes typed (some maker) number calls, LiveCall typed made) ↔
      ∀ call ∈ calls, ¬ call.ReachesAddRr typed := by
  induction calls generalizing number with
  | nil => simp [outcomes]
  | cons call rest ih =>
    have kept : call.madeBy (some maker) number = some maker := by simp [BuildCall.madeBy]
    rw [outcomes, forall_mem_cons, forall_mem_cons, liveCall_iff, kept,
      ih (Nat.lt_succ_of_lt before)]
    simp [Nat.ne_of_lt before]

/-- Every sequence of calls in a process, the first one with any number. The calls use live data
just if none of them, behind the one that made the table, comes to `addRr` in the handler
of `rr`. -/
theorem builds_use_live_data_iff (number : Nat) (calls : List BuildCall) :
    (∀ made ∈ outcomes typed none number calls, LiveCall typed made) ↔
      ∀ call ∈ behindTable calls, ¬ call.ReachesAddRr typed := by
  induction calls generalizing number with
  | nil => simp [outcomes, behindTable]
  | cons call rest ih =>
    have first : LiveCall typed (call, call.run typed none number) := by
      simp [liveCall_iff typed none number call]
    rw [outcomes, forall_mem_cons, behindTable, dropWhile_cons, BuildCall.madeBy]
    by_cases makes : (getTtl call.json).isOk = true
    · rw [if_pos makes, if_neg (by simp [makes]), drop_one, tail_cons]
      exact (and_iff_right first).trans (outcomes_behind typed (Nat.lt_succ_self number) rest)
    · rw [if_neg makes, if_pos (by simp [makes])]
      exact (and_iff_right first).trans (ih (number + 1))

/-- Two bodies with a record of a type without a name: the second call reads the lambda of the
first one. -/
theorem second_build_reads_first_lambda :
    ((outcomes sampleHandlers.typed none 0 [⟨[0x61], 60, {}, .object [rrItem.member]⟩,
        ⟨[0x62], 120, {}, .object [rrItem.member]⟩]).map fun made => made.2.run)[1]? =
      some (.ok (.ok none)) := by
  decide +kernel

end Nsblast.RestBody
