import Nsblast.Replication.FollowerFailures

/-!
# Transactions that are sent again

After a reconnect the primary may send transactions that the follower has applied already.
Each of them is applied as it was the first time, so in between the follower holds older
content; when the last one is applied it holds what it held before. This does not depend on
the ids, and it holds for all column families, since a key has what the last write left there.
It also holds if the connection is lost again on the way, any number of times.

Here the log of the transactions is a column family like the others, and its entries are the
serialised transactions, because a part of a transaction may name any column family. What
serialising gives is a function that is given.
-/

namespace Nsblast.FollowerReplication

open Transaction List Run

variable {V : Type} (serialize : TrxRecord V → V) (debug : Bool)

/-- `Agent::onTrx` on the column families, if no operation of the database fails. -/
def applyTrx (families : Families V) (record : TrxRecord V) : Run (Families V) := do
  let db : Db V := ⟨families, ∅⟩
  let trx ← addParts debug db (fun _ => false) 0 record.parts { disableTrxlog := true }
  let trx ← trx.write db (RealKey.ofTrxId record.id) (serialize record) false .trxlog
  .ok (trx.view db)

/-- The transactions one after the other. -/
def applyAll (families : Families V) (records : List (TrxRecord V)) : Run (Families V) :=
  records.foldlM (applyTrx serialize debug) families

section content

/-- What is stored, by column family and key. -/
def content (families : Families V) : Category × Key → Option V := fun address =>
  (families address.1)[address.2]?

theorem content_injective {first second : Families V} (same : content first = content second) :
    first = second := by
  funext category
  apply Std.ExtTreeMap.ext_getElem?
  intro key
  exact congrFun same (category, key)

theorem content_run (families : Families V) (mutation : Mutation V) :
    content (mutation.run families) =
      Function.update (content families) (mutation.category, mutation.key) mutation.value := by
  obtain ⟨category, key, value⟩ := mutation
  funext ⟨other, read⟩
  by_cases sameCategory : other = category
  · subst sameCategory
    simp only [content, Mutation.run, Function.update_self]
    by_cases sameKey : read = key
    · subst sameKey
      rw [Function.update_self]
      cases value <;> simp
    · have apart : compare key read ≠ .eq := fun same =>
        sameKey (Std.LawfulEqCmp.eq_of_compare same).symm
      rw [Function.update_of_ne (by simp [sameKey])]
      cases value with
      | none => simp [content, Std.ExtTreeMap.getElem?_erase, apart]
      | some data => simp [content, Std.ExtTreeMap.getElem?_insert, apart]
  · rw [Function.update_of_ne (by simp [sameCategory])]
    simp only [content, Mutation.run, Function.update_of_ne sameCategory]

/-- The writes of a batch. -/
def batchWrites (batch : List (Mutation V)) : Replay.Writes (Category × Key) V :=
  batch.map fun mutation => ((mutation.category, mutation.key), mutation.value)

theorem content_view (db : Db V) (trx : Transaction V) :
    content (trx.view db) = Replay.apply (content db.families) (batchWrites trx.batch) := by
  have folded : ∀ (batch : List (Mutation V)) (families : Families V),
      content (batch.foldl Mutation.run families) =
        Replay.apply (content families) (batchWrites batch) := by
    intro batch
    induction batch with
    | nil => exact fun _ => rfl
    | cons mutation rest ih =>
      intro families
      rw [foldl_cons, ih, content_run]
      rfl
  exact folded trx.batch db.families

end content

section parts

/-- The change that a part asks for, unless its column family is unknown. -/
def mutationOf (part : Part V) : Option (Mutation V) :=
  (Category.toCatecory part.columnFamilyIx).map fun category => ⟨category, part.key, part.value⟩

theorem addPart_batch (db : Db V) (trx : Transaction V) (part : Part V) :
    (Follower.addPart db trx part).batch = trx.batch ++ (mutationOf part).toList := by
  rw [Follower.addPart, mutationOf]
  cases Category.toCatecory part.columnFamilyIx with
  | none => simp
  | some category =>
    cases part.value with
    | none => rfl
    | some value => rfl

variable {parts : List (Part V)} {next trx : Transaction V}

/-- The loop over the parts puts their changes into the transaction. -/
theorem addParts_batch {db : Db V} {ix : Nat}
    (added : addParts debug db (fun _ => false) ix parts trx = .ok next) :
    next.batch = trx.batch ++ parts.filterMap mutationOf := by
  induction parts generalizing ix trx with
  | nil =>
    cases added
    simp
  | cons part rest ih =>
    simp only [addParts, bind_eq_ok, Bool.false_eq_true, if_false] at added
    obtain ⟨_, _, added⟩ := added
    rw [ih added, addPart_batch, append_assoc]
    cases isPart : mutationOf part with
    | none => rw [filterMap_cons_none isPart, Option.toList_none, nil_append]
    | some mutation =>
      rw [filterMap_cons_some isPart, Option.toList_some, singleton_append]

/-- Whether the loop gets through depends on the keys of the parts only. -/
theorem addParts_ends {db : Db V} (other : Db V) {ix : Nat} (second : Transaction V)
    (added : addParts debug db (fun _ => false) ix parts trx = .ok next) :
    ∃ again, addParts debug other (fun _ => false) ix parts second = .ok again := by
  have through := addParts_isOk debug other (fun _ => false) ix parts second
  rw [← addParts_isOk debug db (fun _ => false) ix parts trx, added] at through
  cases isSecond : addParts debug other (fun _ => false) ix parts second with
  | ok again => exact ⟨again, rfl⟩
  | _ =>
    rw [isSecond] at through
    cases through

/-- All that a transaction writes: its parts, and its entry in the log. -/
def recordWrites (record : TrxRecord V) : Replay.Writes (Category × Key) V :=
  batchWrites (record.parts.filterMap mutationOf ++
    [⟨.trxlog, RealKey.ofTrxId record.id, some (serialize record)⟩])

end parts

variable {families next : Families V} {record : TrxRecord V}

/-- One transaction changes the content by its writes. -/
theorem applyTrx_content (applied : applyTrx serialize debug families record = .ok next) :
    content next = Replay.apply (content families) (recordWrites serialize record) := by
  simp only [applyTrx, write, Bool.false_and, Bool.false_eq_true, if_false,
    bind_eq_ok, bind_ok] at applied
  obtain ⟨trx, added, same⟩ := applied
  cases same
  rw [content_view]
  have batch := addParts_batch debug added
  simp [change, addPart, batch, recordWrites]

theorem applyTrx_ends (other : Families V)
    (applied : applyTrx serialize debug families record = .ok next) :
    ∃ again, applyTrx serialize debug other record = .ok again := by
  simp only [applyTrx, write, Bool.false_and, Bool.false_eq_true, if_false,
    bind_eq_ok, bind_ok] at applied ⊢
  obtain ⟨trx, added, _⟩ := applied
  obtain ⟨again, isAgain⟩ := addParts_ends debug ⟨other, ∅⟩ { disableTrxlog := true } added
  exact ⟨_, again, isAgain, rfl⟩

/-- The transactions change the content by their writes, and they can be applied to any other
store too. -/
theorem applyAll_content {final : Families V} {records : List (TrxRecord V)}
    (applied : applyAll serialize debug families records = .ok final) :
    content final = Replay.replay (content families) (records.map (recordWrites serialize)) ∧
      ∀ other, ∃ again, applyAll serialize debug other records = .ok again := by
  induction records generalizing families with
  | nil =>
    cases applied
    exact ⟨rfl, fun other => ⟨other, rfl⟩⟩
  | cons record rest ih =>
    simp only [applyAll, foldlM_cons, bind_eq_ok] at applied
    obtain ⟨next, first, later⟩ := applied
    obtain ⟨changed, ends⟩ := ih later
    rw [changed, applyTrx_content serialize debug first]
    refine ⟨rfl, fun other => ?_⟩
    obtain ⟨middle, isMiddle⟩ := applyTrx_ends serialize debug other first
    obtain ⟨again, isAgain⟩ := ends middle
    exact ⟨again, by simp only [applyAll, foldlM_cons, isMiddle, bind_ok]; exact isAgain⟩

/-- When the transactions have been applied, applying the last ones again changes nothing. -/
theorem resent_suffix_harmless (families final : Families V) (before suffix : List (TrxRecord V))
    (applied : applyAll serialize debug families (before ++ suffix) = .ok final) :
    applyAll serialize debug families (before ++ suffix ++ suffix) = .ok final := by
  have split : ∀ first second : List (TrxRecord V),
      applyAll serialize debug families (first ++ second) =
        applyAll serialize debug families first >>= fun next => applyAll serialize debug next second :=
    fun first second => foldlM_append
  rw [split, applied, bind_ok]
  rw [split, bind_eq_ok] at applied
  obtain ⟨middle, _, second⟩ := applied
  obtain ⟨changed, ends⟩ := applyAll_content serialize debug second
  obtain ⟨again, isAgain⟩ := ends final
  have same : content again = content final := by
    rw [(applyAll_content serialize debug isAgain).1, changed, Replay.replay_replay]
  rw [isAgain, content_injective same]

/-- The first of two transactions writes an entry and the second removes it; both are sent
again. -/
theorem removal_resent :
    ∃ final : Families Nat,
      applyAll (fun record => record.id) true (fun _ => ∅)
        [⟨1, [⟨[0, 0x61], 2, some 7⟩]⟩, ⟨2, [⟨[0, 0x61], 2, none⟩]⟩] = .ok final ∧
      applyAll (fun record => record.id) true (fun _ => ∅)
        ([] ++ [⟨1, [⟨[0, 0x61], 2, some 7⟩]⟩, ⟨2, [⟨[0, 0x61], 2, none⟩]⟩] ++
          [⟨1, [⟨[0, 0x61], 2, some 7⟩]⟩, ⟨2, [⟨[0, 0x61], 2, none⟩]⟩]) = .ok final :=
  ⟨_, rfl, resent_suffix_harmless (fun record => record.id) true (fun _ => ∅) _ [] _ rfl⟩

/-- A follower of a log, with the records it has still to get. It applies the next one, or it
is connected anew and gets the log again from an earlier record on. -/
inductive Follows (initial : Families V) (log : List (TrxRecord V)) :
    List (TrxRecord V) → Families V → Prop where
  | start : Follows initial log log initial
  | update {record : TrxRecord V} {rest : List (TrxRecord V)} {families next : Families V}
      (before : Follows initial log (record :: rest) families)
      (applied : applyTrx serialize debug families record = .ok next) :
      Follows initial log rest next
  | resume {rest : List (TrxRecord V)} {families : Families V}
      (before : Follows initial log rest families) (again : List (TrxRecord V))
      (earlier : again ++ rest <:+ log) : Follows initial log (again ++ rest) families

/-- What is still to come leads to the content that the log leads to. -/
theorem Follows.leads {initial : Families V} {log rest : List (TrxRecord V)}
    (follows : Follows serialize debug initial log rest families) :
    Replay.replay (content families) (rest.map (recordWrites serialize)) =
      Replay.replay (content initial) (log.map (recordWrites serialize)) := by
  induction follows with
  | start => rfl
  | update _ applied ih =>
    rw [applyTrx_content serialize debug applied]
    exact ih
  | resume _ again earlier ih =>
    obtain ⟨front, rfl⟩ := earlier
    simp only [map_append] at ih ⊢
    exact Replay.replay_earlier _ _ _ ih

/-- However often its connection was lost, and wherever it was resumed: a follower that has got
the log to its end holds what it would hold if it had got it once. -/
theorem resumed_follower_converges (initial families final : Families V)
    (log : List (TrxRecord V)) (applied : applyAll serialize debug initial log = .ok final)
    (follows : Follows serialize debug initial log [] families) : families = final := by
  have reached := follows.leads
  rw [map_nil, Replay.replay_nil, ← (applyAll_content serialize debug applied).1] at reached
  exact content_injective reached

/-- A log that writes an entry and removes it. -/
def writeAndRemove : List (TrxRecord Nat) :=
  [⟨1, [⟨[0, 0x61], 2, some 7⟩]⟩, ⟨2, [⟨[0, 0x61], 2, none⟩]⟩]

/-- The connection is lost behind its first record, and the log is sent from its beginning. -/
theorem interrupted_follower_converges :
    ∃ families final, applyAll (·.id) true (fun _ => ∅) writeAndRemove = .ok final ∧
      Follows (·.id) true (fun _ => ∅) writeAndRemove [] families ∧ families = final := by
  obtain ⟨families, follows⟩ : ∃ families,
      Follows (·.id) true (fun _ => ∅) writeAndRemove [] families :=
    ⟨_, .update (.update (.resume (.update .start rfl) [_] (suffix_refl _)) rfl) rfl⟩
  exact ⟨families, _, rfl, follows,
    resumed_follower_converges (·.id) true _ families _ writeAndRemove rfl follows⟩

end Nsblast.FollowerReplication
