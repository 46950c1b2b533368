import Nsblast.Storage.Base64
import Mathlib.Data.List.TakeWhile

/-!
# Records of types without a name

A body may give records by the number of their type, as the array of an item `#n` or as the
objects of the array `rr`, with their data in base 64. `RestApi::build` passes them to
`createBase64`. It accepts every type of sixteen bits apart from 0 and four others, but the
sort in `finish` knows types below 255 only.

The handlers for the items with the name of a type are given. The table of the handlers is
static, so that the handler of `rr` keeps the `addRr` of the first body that was built, and
with it the ttl; later calls read it where that call had it. It is given as well.

A reply with an error is thrown, but it is not a `std::exception`: the one that `build`
catches around the handlers is turned into a reply.
-/

namespace Nsblast.RestBody

open Labels Wire.Narrow List Run

/-- `boost::json::value`. Booleans, null and the other numbers are not told apart. -/
inductive Value where
  | other
  | int64 (number : Int)
  | string (text : Text)
  | array (values : List Value)
  | object (members : List (String × Value))

structure Response where
  code : Nat
  reason : String
  deriving DecidableEq, Repr

/-- Code that may throw a `Response`. -/
abbrev Handled (α : Type) : Type := ExceptT Response Run α

section code

def badRequest {α : Type} (reason : String) : Handled α := ExceptT.mk (.ok (.error ⟨400, reason⟩))

/-- Code that does not throw a `Response`. -/
def plain {α : Type} (run : Run α) : Handled α := ExceptT.mk (run >>= fun value => .ok (.ok value))

/-- `as_int64`. -/
def Value.asInt64 : Value → Run Int
  | .int64 number => .ok number
  | _ => .thrown "value is not an int64"

/-- `as_object`. -/
def Value.asObject : Value → Run (List (String × Value))
  | .object members => .ok members
  | _ => .thrown "value is not an object"

/-- `getTtl`. -/
def getTtl (json : Value) : Run (Option UInt32) :=
  match json with
  | .object members =>
      match members.lookup "ttl" with
      | some ttl => do
          let number ← ttl.asInt64
          .ok (some (UInt32.ofInt number))
      | none => .ok none
  | _ => .ok none

/-- White space, for the C locale. -/
def isSpace (ch : Char) : Bool := ch ∈ [' ', '\t', '\n', '\x0b', '\x0c', '\r']

/-- A sign, and what follows. -/
def splitSign : List Char → Bool × List Char
  | '-' :: rest => (true, rest)
  | '+' :: rest => (false, rest)
  | text => (false, text)

/-- `std::stoi`. -/
def stoi (text : List Char) : Run Int :=
  let signed := splitSign (text.dropWhile isSpace)
  let digits := signed.2.takeWhile Char.isDigit
  let magnitude : Int := Nat.ofDigitChars 10 digits 0
  let value := if signed.1 then -magnitude else magnitude
  if digits = [] ∨ value < -2147483648 ∨ 2147483647 < value then .thrown "stoi" else .ok value

/-- Types that are accepted by their names only. -/
def forbidden : List Nat := [RrType.soa.toNat, RrType.ns.toNat, RrType.mx.toNat]

/-- The lambda `addRr`, with the ttl it keeps. -/
def addRr (ttl : UInt32) (sb : Wire.StorageBuilder) (fqdn : Name) (type : Nat) (rdata : Value) :
    Handled Wire.StorageBuilder :=
  if type > 65535 then
    badRequest ("Invalid type (type must be an unsigned 16 bit integer): " ++ toString type)
  else if type ∈ forbidden then
    badRequest ("RR type " ++ toString type ++
      " can only be accepted by its type name, and with proper json format")
  else if type = typeOpt then badRequest "OPT (41) is not a valid RR-type for storage"
  else match rdata with
    | .string text => plain (createBase64 sb fqdn (UInt16.ofNat type) ttl text)
    | _ => badRequest ("RR type #" ++ toString type ++
        " must have a value consisting of a base-64 encoded string.")

/-- The locals of the handler of `rr`. -/
structure RrFields where
  type : Nat := 0
  rdata : Value := .other

/-- A member of an object in `rr`. -/
def readField (fields : RrFields) (e : String × Value) : Handled RrFields :=
  if e.1 = "rdata" then pure { fields with rdata := e.2 }
  else if e.1 = "type" then do
    let val ← plain e.2.asInt64
    if val < 0 ∨ 65535 < val then
      badRequest ("Invalid type (type must be an unsigned 16 bit integer): " ++ toString val)
    else pure { fields with type := val.toNat }
  else badRequest ("Unknown entity in rr: " ++ e.1)

/-- A name in a message. -/
def shown (fqdn : Name) : String := String.ofList (fqdn.map fun ch => Char.ofNat ch.toNat)

/-- An element of `rr`. -/
def rrElement (captured : UInt32) (fqdn : Name) (sb : Wire.StorageBuilder) :
    Value → Handled Wire.StorageBuilder
  | .object members => do
      let fields ← members.foldlM readField {}
      if fields.type = 0 then badRequest ("Invalid or missing type in rr in " ++ shown fqdn)
      else addRr captured sb fqdn fields.type fields.rdata
  | _ => badRequest "Json element 'rr' must be an array of objects(s)"

/-- The handler of `rr`. -/
def handleRr (captured : UInt32) (fqdn : Name) (sb : Wire.StorageBuilder) :
    Value → Handled Wire.StorageBuilder
  | .array values => values.foldlM (rrElement captured fqdn) sb
  | _ => badRequest "Json element 'rr' must be an array of objects(s)"

abbrev Handler : Type := Name → UInt32 → Wire.StorageBuilder → Value → Handled Wire.StorageBuilder

/-- The table of the handlers: the ttl that the one of `rr` finds, and those of the types with
a name. -/
structure Handlers where
  captured : UInt32
  typed : String → Handler

/-- The types with a name. -/
def typeNames : List String := ["soa", "srv", "ns", "a", "txt", "hinfo", "rp", "cname", "dhcid",
  "openpgpkey", "ptr", "mx", "afsdb"]

/-- `handlers.find`. The ttl of the body was read before. -/
def Handlers.find (handlers : Handlers) (key : String) : Option Handler :=
  if key = "ttl" then some fun _ _ sb _ => pure sb
  else if key = "rr" then some fun fqdn _ sb v => handleRr handlers.captured fqdn sb v
  else if key ∈ typeNames then some (handlers.typed key)
  else none

/-- The `catch` around the handlers. -/
def converting {α : Type} (key : String) (run : Handled α) : Handled α :=
  match run.run with
  | .thrown _ => badRequest ("Failed converting '" ++ key ++ "' from json payload to internal format.")
  | other => ExceptT.mk other

/-- A member of the body. The number of a type is converted to 64 bits without a sign. -/
def buildMember (handlers : Handlers) (fqdn : Name) (ttl : UInt32) (sb : Wire.StorageBuilder)
    (obj : String × Value) : Handled Wire.StorageBuilder :=
  match handlers.find obj.1 with
  | some handler => converting obj.1 (handler fqdn ttl sb obj.2)
  | none =>
      match obj.1.toList with
      | '#' :: digits => do
          let id ← plain (stoi digits)
          if id = 0 then badRequest ("Unknown entity: " ++ obj.1)
          else match obj.2 with
            | .array values => values.foldlM (fun sb v => addRr ttl sb fqdn (id % 2 ^ 64).toNat v) sb
            | _ => badRequest ("#" ++ toString id ++ " type must carry an array of values.")
      | _ => badRequest ("Unknown entity: " ++ obj.1)

/-- `RestApi::build`, without `finish`. -/
def build (handlers : Handlers) (fqdn : Name) (ttl : UInt32) (sb : Wire.StorageBuilder)
    (json : Value) :
    Handled Wire.StorageBuilder := do
  let jttl ← plain (getTtl json)
  let members ← plain json.asObject
  members.foldlM (buildMember handlers fqdn (jttl.getD ttl)) sb

end code

section bodies

/-- A type that may be given by its number. -/
structure GenericType where
  number : UInt16
  positive : number ≠ 0
  accepted : number.toNat ∉ forbidden ∧ number.toNat ≠ typeOpt

/-- Data with their text in base 64. -/
structure Blob where
  text : Text
  data : List UInt8
  encodes : Base64.Encodes text data

/-- An object of `rr`, with its two members in some order. -/
structure RrObject where
  type : GenericType
  blob : Blob
  typeFirst : Bool

/-- An item of a body. Any text that is read as the number of the type may follow the `#`. -/
inductive Item where
  | hash (type : GenericType) (digits : List Char) (isType : stoi digits = .ok type.number.toNat)
      (blobs : List Blob)
  | rr (objects : List RrObject)

def RrObject.json (object : RrObject) : Value :=
  let type := ("type", Value.int64 object.type.number.toNat)
  let rdata := ("rdata", Value.string object.blob.text)
  .object (if object.typeFirst then [type, rdata] else [rdata, type])

/-- The member of the body. -/
def Item.member : Item → String × Value
  | hash _ digits _ blobs =>
      (String.ofList ('#' :: digits), .array (blobs.map fun blob => .string blob.text))
  | rr objects => ("rr", .array (objects.map RrObject.json))

/-- The types and data that are given. -/
def Item.given : Item → List (Nat × List UInt8)
  | hash type _ _ blobs => blobs.map fun blob => (type.number.toNat, blob.data)
  | rr objects => objects.map fun object => (object.type.number.toNat, object.blob.data)

/-- The records to create, with their ttl. -/
def Item.creations (ttl captured : UInt32) : Item → List Creation
  | hash type _ _ blobs => blobs.map fun blob => ⟨type.number, ttl, blob.data⟩
  | rr objects => objects.map fun object => ⟨object.type.number, captured, object.blob.data⟩

/-- The call for a record. -/
def toCall (fqdn : Name) (creation : Creation) : Call :=
  ⟨fqdn, creation.type, creation.ttl, creation.rdata, true⟩

/-- The number of a type in decimal is read as the number. -/
theorem stoi_decimal {number : Nat} (small : number ≤ 2147483647) :
    stoi (Nat.toDigits 10 number) = .ok number := by
  have digits : ∀ ch ∈ Nat.toDigits 10 number, ch.isDigit = true :=
    fun ch member => Nat.isDigit_of_mem_toDigits (by decide) (by decide) member
  have value : Nat.ofDigitChars 10 (Nat.toDigits 10 number) 0 = number :=
    Nat.ofDigitChars_toDigits (by decide) (by decide)
  obtain ⟨first, rest, isDigits⟩ := exists_cons_of_ne_nil (Nat.toDigits_ne_nil (n := number) (b := 10))
  rw [isDigits] at digits value ⊢
  have digit : first.isDigit = true := digits first mem_cons_self
  have notSpace : isSpace first = false := by
    by_contra space
    simp only [isSpace, mem_cons, not_mem_nil, or_false, decide_eq_true_eq,
      Bool.not_eq_false] at space
    rcases space with rfl | rfl | rfl | rfl | rfl | rfl <;> cases digit
  have unsigned : splitSign (first :: rest) = (false, first :: rest) := by
    have notMinus : first ≠ '-' := by
      rintro rfl
      cases digit
    have notPlus : first ≠ '+' := by
      rintro rfl
      cases digit
    simp [splitSign, notMinus, notPlus]
  have all : (first :: rest).takeWhile Char.isDigit = first :: rest := takeWhile_eq_self_iff.mpr digits
  have inside : ¬ (first :: rest = [] ∨ (number : Int) < -2147483648 ∨ 2147483647 < (number : Int)) := by
    simp only [reduceCtorEq, false_or]
    omega
  rw [stoi, dropWhile_cons_of_neg (by simp [notSpace]), unsigned]
  simp only [all, value, Bool.false_eq_true, if_false]
  rw [if_neg inside]

end bodies

section returning

/-- The code returns what the other one returns, and only then. -/
def Returns {α : Type} (handled : Handled α) (run : Run α) : Prop :=
  ∀ value, handled.run = .ok (.ok value) ↔ run = .ok value

variable {α β : Type}

theorem run_bind_eq_ok (handled : Handled α) (next : α → Handled β) (value : β) :
    (handled >>= next).run = .ok (.ok value) ↔
      ∃ middle, handled.run = .ok (.ok middle) ∧ (next middle).run = .ok (.ok value) := by
  rw [ExceptT.run_bind, bind_eq_ok]
  constructor
  · rintro ⟨result, here, later⟩
    cases result with
    | ok middle => exact ⟨middle, here, later⟩
    | error response => cases later
  · rintro ⟨middle, here, later⟩
    exact ⟨.ok middle, here, later⟩

theorem plain_returns (run : Run α) : Returns (plain run) run := by
  intro value
  cases run with
  | ok result => simp [plain]
  | _ => exact ⟨nofun, nofun⟩

theorem Returns.converting {handled : Handled α} {run : Run α} (returns : Returns handled run)
    (key : String) : Returns (converting key handled) run := by
  intro value
  rw [← returns value, RestBody.converting]
  split
  · rename_i thrown
    rw [thrown]
    exact ⟨nofun, nofun⟩
  · rfl

/-- A loop returns what the other one returns, if each turn does. -/
theorem Returns.foldlM {σ : Type} {handled : σ → α → Handled σ} {run : σ → α → Run σ}
    (elements : List α)
    (returns : ∀ state, ∀ element ∈ elements, Returns (handled state element) (run state element))
    (state : σ) : Returns (elements.foldlM handled state) (elements.foldlM run state) := by
  induction elements generalizing state with
  | nil => exact plain_returns (.ok state)
  | cons element rest ih =>
    intro value
    have here := returns state element mem_cons_self
    have later := ih fun state other member => returns state other (mem_cons_of_mem _ member)
    rw [foldlM_cons, foldlM_cons, run_bind_eq_ok, bind_eq_ok]
    exact exists_congr fun middle => and_congr (here middle) (later middle value)

end returning

section building

variable (handlers : Handlers) (fqdn : Name) (ttl : UInt32)

variable (sb : Wire.StorageBuilder)

/-- A type and data that are accepted are passed on. -/
theorem addRr_accepted (type : GenericType) (blob : Blob) :
    Returns (addRr ttl sb fqdn type.number.toNat (.string blob.text))
      (createRr sb fqdn type.number ttl blob.data true) := by
  have small : ¬ type.number.toNat > 65535 := by
    have := type.number.toNat_lt
    omega
  rw [addRr, if_neg small, if_neg type.accepted.1, if_neg type.accepted.2, createBase64,
    Base64.base64Decode_of_encodes blob.encodes, bind_ok, UInt16.ofNat_toNat]
  exact plain_returns _

/-- An object of `rr` is read in both orders of its members. -/
theorem rrElement_accepted (object : RrObject) :
    Returns (rrElement handlers.captured fqdn sb object.json)
      (createRr sb fqdn object.type.number handlers.captured object.blob.data true) := by
  have small := object.type.number.toNat_lt
  have inside : ¬ ((object.type.number.toNat : Int) < 0 ∨ 65535 < (object.type.number.toNat : Int)) := by
    omega
  have positive : object.type.number.toNat ≠ 0 := fun zero =>
    object.type.positive (UInt16.toNat_inj.mp zero)
  have fields : (if object.typeFirst then [("type", Value.int64 object.type.number.toNat),
        ("rdata", Value.string object.blob.text)] else [("rdata", Value.string object.blob.text),
        ("type", Value.int64 object.type.number.toNat)]).foldlM readField {} =
      (pure ⟨object.type.number.toNat, .string object.blob.text⟩ : Handled RrFields) := by
    have readType : ∀ fields : RrFields, readField fields ("type", .int64 object.type.number.toNat) =
        pure { fields with type := object.type.number.toNat } := by
      intro fields
      rw [readField, if_neg (by simp), if_pos rfl]
      exact if_neg inside
    have readData : ∀ fields : RrFields, readField fields ("rdata", .string object.blob.text) =
        pure { fields with rdata := .string object.blob.text } := fun _ => if_pos rfl
    cases object.typeFirst with
    | true =>
      rw [if_pos rfl, foldlM_cons, readType, pure_bind, foldlM_cons, readData, pure_bind]
      rfl
    | false =>
      rw [if_neg Bool.false_ne_true, foldlM_cons, readData, pure_bind, foldlM_cons, readType,
        pure_bind]
      rfl
  have element : rrElement handlers.captured fqdn sb object.json =
      addRr handlers.captured sb fqdn object.type.number.toNat (.string object.blob.text) := by
    rw [RrObject.json, rrElement, fields]
    exact if_neg positive
  rw [element]
  exact addRr_accepted fqdn handlers.captured sb object.type object.blob

/-- No handler has a key that begins with `#`. -/
theorem find_hash (digits : List Char) : handlers.find (String.ofList ('#' :: digits)) = none := by
  have other : ∀ key : String, key.toList.head? ≠ some '#' → String.ofList ('#' :: digits) ≠ key := by
    rintro key notHash rfl
    exact notHash (by rw [String.toList_ofList]; rfl)
  have names : ∀ key ∈ typeNames, key.toList.head? ≠ some '#' := by decide
  rw [Handlers.find, if_neg (other _ (by decide)), if_neg (other _ (by decide)),
    if_neg fun member => other _ (names _ member) rfl]

theorem buildMember_returns (item : Item) :
    Returns (buildMember handlers fqdn ttl sb item.member)
      (createAll ((item.creations ttl handlers.captured).map (toCall fqdn)) sb) := by
  cases item with
  | hash type digits isType blobs =>
    have small := type.number.toNat_lt
    have positive : ¬ (type.number.toNat : Int) = 0 := fun zero =>
      type.positive (UInt16.toNat_inj.mp (Int.ofNat_eq_zero.mp zero))
    have unsigned : ((type.number.toNat : Int) % 2 ^ 64).toNat = type.number.toNat := by omega
    have isMember : buildMember handlers fqdn ttl sb (Item.hash type digits isType blobs).member =
        (blobs.map fun blob => Value.string blob.text).foldlM
          (fun sb v => addRr ttl sb fqdn type.number.toNat v) sb := by
      rw [buildMember, Item.member]
      simp only [find_hash, String.toList_ofList, isType]
      refine (if_neg positive).trans ?_
      rw [unsigned]
    rw [isMember, foldlM_map, createAll, Item.creations, map_map, foldlM_map]
    exact Returns.foldlM blobs (fun sb blob _ => addRr_accepted fqdn ttl sb type blob) sb
  | rr objects =>
    rw [createAll, Item.creations, map_map, foldlM_map]
    have isMember : buildMember handlers fqdn ttl sb (Item.rr objects).member =
        converting "rr" ((objects.map RrObject.json).foldlM (rrElement handlers.captured fqdn) sb) := rfl
    rw [isMember, foldlM_map]
    exact (Returns.foldlM objects (fun sb object _ => rrElement_accepted handlers fqdn sb object)
      sb).converting "rr"

/-- The calls of a list of lists. -/
theorem createAll_flatMap {γ : Type} (elements : List γ) (calls : γ → List Call)
    (sb : Wire.StorageBuilder) :
    elements.foldlM (fun sb element => createAll (calls element) sb) sb =
      createAll (elements.flatMap calls) sb := by
  induction elements generalizing sb with
  | nil => rfl
  | cons element rest ih =>
    rw [foldlM_cons, flatMap_cons, createAll, createAll, foldlM_append]
    exact congrArg (_ >>= ·) (funext ih)

/-- The records that the items of a body give. -/
def creationsOf (items : List Item) : List Creation :=
  items.flatMap (Item.creations ttl handlers.captured)

/-- Building the body is a call for each record. -/
theorem build_returns (items : List Item) :
    Returns (build handlers fqdn ttl sb (.object (items.map Item.member)))
      (createAll ((creationsOf handlers ttl items).map (toCall fqdn)) sb) := by
  have keys : ∀ item : Item, item.member.1 ≠ "ttl" := by
    intro item isTtl
    cases item with
    | hash type digits isType blobs =>
      have chars := congrArg String.toList isTtl
      rw [Item.member, String.toList_ofList] at chars
      exact absurd (List.cons.inj chars).1 (by decide)
    | rr objects =>
      have same : "rr" = "ttl" := isTtl
      exact absurd same (by decide)
  have noTtl : (items.map Item.member).lookup "ttl" = none := by
    rw [lookup_eq_none_iff]
    intro member isMember
    obtain ⟨item, _, rfl⟩ := mem_map.mp isMember
    simpa using (keys item).symm
  have isBuild : build handlers fqdn ttl sb (.object (items.map Item.member)) =
      (items.map Item.member).foldlM (buildMember handlers fqdn ttl) sb := by
    rw [build, getTtl, noTtl]
    rfl
  rw [isBuild, foldlM_map, creationsOf, map_flatMap, ← createAll_flatMap]
  exact Returns.foldlM items (fun sb item _ => buildMember_returns handlers fqdn ttl sb item) sb

end building

section storing

/-- The types and data that the items of a body give. -/
def givenBy (items : List Item) : List (Nat × List UInt8) := items.flatMap Item.given

/-- What is given of a record. -/
def givenOf (creation : Creation) : Nat × List UInt8 := (creation.type.toNat, creation.rdata)

/-- `build` and `finish` return, and the entry has the given records. -/
def StoresGiven (sorter : Sorter Wire.placeLess) (handlers : Handlers) (fqdn : Name) (ttl : UInt32)
    (placed : Wire.StorageBuilder) (items : List Item) : Prop :=
  ∃ filled bytes entry records,
    (build handlers fqdn ttl placed (.object (items.map Item.member))).run = .ok (.ok filled) ∧
      filled.finish sorter = .ok bytes ∧ Wire.Entry.construct bytes = .ok entry ∧
      entry.records = .ok records ∧
      (records.map fun record => (record.type, record.rdata)).Perm (givenBy items)

/-- What the code asks of the records and their name. -/
structure Storable (sort : Bool) (fqdn : Name) (given : List (Nat × List UInt8)) : Prop where
  few : given.length ≤ indexBlock
  low : sort = true → 2 ≤ given.length → ∀ rr ∈ given, rr.1 < 255
  named : given ≠ [] → Name.Writable (StorageBuilder.withoutDot fqdn) ∧ fqdn ≠ [0x2E]

/-- The bytes of the entry in front of its index. -/
def givenSize (tenantId : Option Uuid) (fqdn : Name) (given : List (Nat × List UInt8)) : Nat :=
  firstName tenantId + (wireName (StorageBuilder.withoutDot fqdn)).length + 2 * (given.length - 1) +
    (given.map fun rr => 10 + rr.2.length).sum

theorem Item.given_eq (ttl captured : UInt32) (item : Item) :
    item.given = (item.creations ttl captured).map givenOf := by
  cases item <;> simp [Item.given, Item.creations, givenOf]

theorem givenBy_eq (handlers : Handlers) (ttl : UInt32) (items : List Item) :
    givenBy items = (creationsOf handlers ttl items).map givenOf := by
  rw [givenBy, creationsOf, map_flatMap]
  exact congrArg (items.flatMap ·) (funext fun item => item.given_eq ttl handlers.captured)

/-- The types that may be given do not include the SOA. -/
theorem no_soa {handlers : Handlers} {ttl : UInt32} {items : List Item} :
    ∀ creation ∈ creationsOf handlers ttl items, creation.type ≠ RrType.soa := by
  have accepted : ∀ type : GenericType, type.number ≠ RrType.soa := by
    rintro type isSoa
    exact type.accepted.1 (by rw [isSoa]; decide)
  intro creation member
  obtain ⟨item, _, isCreation⟩ := mem_flatMap.mp member
  cases item with
  | hash type digits isType blobs =>
    obtain ⟨blob, _, rfl⟩ := mem_map.mp isCreation
    exact accepted type
  | rr objects =>
    obtain ⟨object, _, rfl⟩ := mem_map.mp isCreation
    exact accepted object.type

/-- The records that are added have the types and data of the calls. -/
theorem added_given (fqdn : Name) (creations : List Creation) (first : Option Name) :
    (added first (creations.map (toCall fqdn))).map (fun record => (record.type, record.rdata)) =
      creations.map givenOf := by
  induction creations generalizing first with
  | nil => rfl
  | cons creation rest ih =>
    rw [map_cons, added, map_cons, ih]
    rfl

variable {tenantId : Option Uuid} {zonelen : Nat} {sort oneSoa : Bool}
  {placed filled : Wire.StorageBuilder} {fqdn : Name} {creations : List Creation}

/-- The index of a builder that was begun and filled. -/
theorem filled_index (encodes : Encodes placed { tenantId, zoneLen := zonelen, sort, oneSoa })
    (ran : createAll (creations.map (toCall fqdn)) placed = .ok filled) :
    filled.index.map Index.type = (creations.map givenOf).map Prod.fst ∧ filled.sort = sort := by
  obtain ⟨types, isSort⟩ := createAll_adds ran
  have empty : placed.index = [] := forall₂_nil_right_iff.mp encodes.placed
  rw [types, isSort, empty, encodes.sort]
  simp [toCall, givenOf]

/-- What is built and finished meets the conditions. -/
theorem storable_of_finished
    (encodes : Encodes placed { tenantId, zoneLen := zonelen, sort, oneSoa })
    (ran : createAll (creations.map (toCall fqdn)) placed = .ok filled)
    {sorter : Sorter Wire.placeLess} {bytes : Buffer}
    (isFinished : filled.finish sorter = .ok bytes) :
    Storable sort fqdn (creations.map givenOf) := by
  obtain ⟨types, isSort⟩ := filled_index encodes ran
  have count : filled.index.length = (creations.map givenOf).length := by
    simpa using congrArg length types
  simp only [Wire.StorageBuilder.finish, bind_eq_ok] at isFinished
  obtain ⟨_, _, _, _, _, sorted, isFinished⟩ := isFinished
  have low := of_decide_eq_true (assert_eq_ok sorted)
  refine ⟨?few, ?low, ?named⟩
  case few =>
    rw [← count]
    by_contra many
    rw [if_neg many] at isFinished
    cases isFinished
  case low =>
    intro sorting two rr member
    have isType : rr.1 ∈ filled.index.map Index.type := by
      rw [types]
      exact mem_map_of_mem member
    obtain ⟨place, isPlace, same⟩ := mem_map.mp isType
    rw [← same]
    exact low (isSort.trans sorting) (by omega) place isPlace
  case named =>
    intro some
    cases creations with
    | nil => exact absurd rfl some
    | cons creation rest =>
      rw [map_cons, createAll, foldlM_cons, bind_eq_ok] at ran
      obtain ⟨middle, here, _⟩ := ran
      have alone : placed.sharesName (toCall fqdn creation).fqdn (toCall fqdn creation).isOneEntity =
          .ok false := by
        rw [Wire.StorageBuilder.sharesName, encodes.namePtr, if_pos rfl, if_pos rfl]
      rw [createRr, alone] at here
      simp only [bind_ok, Bool.false_eq_true, if_false, bind_eq_ok] at here
      obtain ⟨_, _, rlen, written, _, _, _, measured, _⟩ := here
      obtain rfl : rlen = StorageBuilder.labelsLen fqdn := of_decide_eq_true (assert_eq_ok measured)
      exact writeName_labelsLen.mp written

/-- Records that meet the conditions and are not too large are created. -/
theorem created_of_storable
    (encodes : Encodes placed { tenantId, zoneLen := zonelen, sort, oneSoa })
    (noSoa : ∀ creation ∈ creations, creation.type ≠ RrType.soa)
    (storable : Storable sort fqdn (creations.map givenOf))
    (fits : givenSize tenantId fqdn (creations.map givenOf) ≤ 65535) :
    ∃ filled, (creations.map (toCall fqdn)).foldlM (fun builder call => Wire.StorageBuilder.createRr builder
      call.fqdn call.type call.ttl call.rdata call.isOneEntity) placed = .ok filled ∧
      filled.finished = false := by
  by_cases none : creations = []
  · rw [none]
    exact ⟨placed, rfl, encodes.opened⟩
  obtain ⟨written, notDot⟩ := storable.named (by simpa using none)
  have single : (creations.countP fun creation => creation.type == RrType.soa) ≤ 1 := by
    rw [countP_eq_zero.mpr fun creation member => by simpa using noSoa creation member]
    decide
  have size : storedSize tenantId fqdn creations =
      givenSize tenantId fqdn (creations.map givenOf) + 4 * creations.length := by
    rw [storedSize, givenSize, length_map, map_map]
    rfl
  have created := createAll_creates { tenantId, zoneLen := zonelen, sort, oneSoa } rfl fqdn
    written notDot none single (by simp only; omega)
  have same := Run.Rel.foldlM creations encodes (fun _ _ creation encodes =>
    encodes.createRr fqdn creation.type creation.ttl creation.rdata true)
  rw [created] at same
  obtain ⟨filled, ran, encoded⟩ := same.returned
  rw [foldlM_map]
  exact ⟨filled, ran, encoded.opened⟩

/-- What meets the conditions is finished. -/
theorem finished_of_storable (sorter : Sorter Wire.placeLess)
    (encodes : Encodes placed { tenantId, zoneLen := zonelen, sort, oneSoa })
    (ran : createAll (creations.map (toCall fqdn)) placed = .ok filled)
    (opened : filled.finished = false) (long : bufferHeaderLen ≤ filled.buffer.length)
    (storable : Storable sort fqdn (creations.map givenOf)) :
    ∃ bytes, filled.finish sorter = .ok bytes := by
  obtain ⟨types, isSort⟩ := filled_index encodes ran
  have count : filled.index.length = (creations.map givenOf).length := by
    simpa using congrArg length types
  have low : filled.sort = true → 2 ≤ filled.index.length → ∀ place ∈ filled.index, place.type < 255 := by
    intro sorting two place isPlace
    have isType : place.type ∈ (creations.map givenOf).map Prod.fst := by
      rw [← types]
      exact mem_map_of_mem isPlace
    obtain ⟨rr, member, same⟩ := mem_map.mp isType
    rw [← same]
    exact storable.low (isSort.symm.trans sorting) (by omega) rr member
  have notFinished : assert (!filled.finished) = .ok () := by
    rw [opened]
    rfl
  rw [Wire.StorageBuilder.finish, notFinished, bind_ok, throwIf_of_not (by omega), bind_ok,
    assert_of low, bind_ok, if_pos (by rw [count]; exact storable.few)]
  exact ⟨_, rfl⟩

end storing

/-- Any body of items with numbers of types and data in base 64. If it is stored, and the
entry yields what was given, then the code's conditions hold; and they are enough as long as
the entry has at most 65535 bytes in front of its index. -/
theorem generic_records_stored (sorter : Sorter Wire.placeLess) (handlers : Handlers) (fqdn : Name)
    (ttl : UInt32) (tenantId : Option Uuid) (zonelen : Nat) (sort oneSoa : Bool)
    (placed : Wire.StorageBuilder) (items : List Item)
    (isPlaced : begun tenantId zonelen sort oneSoa = .ok placed) :
    (StoresGiven sorter handlers fqdn ttl placed items → Storable sort fqdn (givenBy items)) ∧
      (givenSize tenantId fqdn (givenBy items) ≤ 65535 → Storable sort fqdn (givenBy items) →
        StoresGiven sorter handlers fqdn ttl placed items) := by
  obtain ⟨zone, encodes, header⟩ := begun_encoded isPlaced
  have long : 0 < placed.buffer.length := Nat.lt_of_lt_of_le (by decide) header
  have returns := build_returns handlers fqdn ttl placed items
  rw [givenBy_eq handlers ttl]
  constructor
  · rintro ⟨filled, bytes, _, _, built, isFinished, _⟩
    exact storable_of_finished encodes ((returns filled).mp built) isFinished
  · intro fits storable
    obtain ⟨filled, wireRan, opened⟩ := created_of_storable encodes (no_soa) storable fits
    have ran := createAll_of_wire long wireRan
    obtain ⟨bytes, isFinished⟩ := finished_of_storable sorter encodes ran opened
      (header.trans (le_length_createAll ran)) storable
    obtain ⟨entry, records, constructed, read, same, _⟩ :=
      wire_yields_added zone encodes wireRan isFinished
    refine ⟨filled, bytes, entry, records, (returns filled).mpr ran, isFinished, constructed, read, ?_⟩
    rw [givenBy_eq handlers ttl, ← added_given fqdn _ none]
    exact same.map _

section sample

/-- An address, by its number. -/
def addressType : GenericType := ⟨1, by decide, by decide⟩

/-- A type for private use. -/
def privateType : GenericType := ⟨65280, by decide, by decide⟩

/-- `AQIDBA==`. -/
def address : Blob where
  text := [0x41, 0x51, 0x49, 0x44, 0x42, 0x41, 0x3D, 0x3D]
  data := [1, 2, 3, 4]
  encodes := .three 0 16 8 3 (.one 1 0)

/-- `AA==`. -/
def zero : Blob := ⟨[0x41, 0x41, 0x3D, 0x3D], [0], .one 0 0⟩

/-- `"#65280": ["AA=="]`. -/
def privateItem : Item := .hash privateType _ (stoi_decimal (by decide)) [zero]

/-- `"#1": ["AQIDBA=="]`. -/
def addressItem : Item := .hash addressType _ (stoi_decimal (by decide)) [address]

/-- `"rr": [{"type": 1, "rdata": "AQIDBA=="}]`. -/
def rrItem : Item := .rr [⟨addressType, address, true⟩]

/-- Handlers that do nothing for the types with a name. -/
def sampleHandlers : Handlers := ⟨300, fun _ _ _ sb _ => pure sb⟩

/-- A record of such a type is stored alone, and addresses are stored beside each other. -/
theorem private_record_stored : ∃ placed, begun none 1 true true = .ok placed ∧
    StoresGiven insertionPlaces sampleHandlers [0x61] 60 placed [privateItem] ∧
    StoresGiven insertionPlaces sampleHandlers [0x61] 60 placed [addressItem, rrItem] := by
  have written : Name.Writable (StorageBuilder.withoutDot [0x61]) ∧ ([0x61] : Name) ≠ [0x2E] := by
    decide +kernel
  have alone : ¬ 2 ≤ (givenBy [privateItem]).length := by decide
  have low : ∀ rr ∈ givenBy [addressItem, rrItem], rr.1 < 255 := by decide
  refine ⟨_, rfl, ?_, ?_⟩
  · exact (generic_records_stored insertionPlaces sampleHandlers [0x61] 60 none 1 true true _ [privateItem]
      rfl).2 (by decide +kernel) ⟨by decide, fun _ two => absurd two alone, fun _ => written⟩
  · exact (generic_records_stored insertionPlaces sampleHandlers [0x61] 60 none 1 true true _
      [addressItem, rrItem] rfl).2 (by decide +kernel) ⟨by decide, fun _ _ => low, fun _ => written⟩

/-- With an address beside it, the sort in `finish` does not know the type. -/
theorem private_record_beside_address : ∃ placed filled, begun none 1 true true = .ok placed ∧
    (build sampleHandlers [0x61] 60 placed (.object ([addressItem, privateItem].map Item.member))).run =
      .ok (.ok filled) ∧
    filled.finish insertionPlaces = .aborted ∧
    ¬ StoresGiven insertionPlaces sampleHandlers [0x61] 60 placed [addressItem, privateItem] := by
  have evaluated : (begun none 1 true true >>= fun placed =>
      createAll ((creationsOf sampleHandlers 60 [addressItem, privateItem]).map (toCall [0x61])) placed
        >>= fun filled => .ok (filled.finish insertionPlaces)) = .ok .aborted := by
    decide +kernel
  simp only [bind_eq_ok, Run.ok.injEq] at evaluated
  obtain ⟨placed, isPlaced, filled, ran, aborts⟩ := evaluated
  have built := (build_returns sampleHandlers [0x61] 60 placed [addressItem, privateItem] filled).mpr ran
  refine ⟨placed, filled, isPlaced, built, aborts, ?_⟩
  rintro ⟨other, bytes, _, _, isOther, isFinished, _⟩
  rw [built] at isOther
  cases isOther
  rw [aborts] at isFinished
  cases isFinished

end sample

end Nsblast.RestBody
