import Nsblast.Engine.Axfr
import Nsblast.Store.Entries

/-!
# Which records a transfer sends

A zone is its name and the names below it, without those strictly below a
delegation and those of another hosted zone. The visit of `DnsEngine::doAxfr`
decides by the bytes of the keys: it leaves out an entry exactly when an entry
with a single record, which is an NS record, has a key that the key of the entry
continues. A transfer sends the zone exactly when these two agree on every entry
from the zone on, to the end of the store, and every record fits into a reply.
-/

namespace Nsblast.DnsEngine

open RealKey (ofName ofName_eq)
open List
open StorageBuilder (newRr)

/-- Continuing a key that is cut off. -/
theorem behindCut_iff (cut : List UInt8) (dbKey : Key) :
    behindCut cut dbKey = true ↔ cut ≠ [] ∧ cut <+: dbKey := by
  simp only [behindCut, Bool.and_eq_true, decide_eq_true_eq, beq_iff_eq]
  constructor
  · rintro ⟨⟨some, _⟩, same⟩
    exact ⟨some, prefix_iff_eq_take.mpr same.symm⟩
  · rintro ⟨some, continued⟩
    exact ⟨⟨some, continued.length_le⟩, (prefix_iff_eq_take.mp continued).symm⟩

/-- An entry whose key becomes the cut as it is. -/
def isSingleDelegation (entry : Entry) : Bool := entry.isDelegation && entry.rrs.length == 1

/-- Some entry of the list cuts the key off. -/
def cutOff (visited : List (Key × Entry)) (dbKey : Key) : Bool :=
  visited.any fun other =>
    isSingleDelegation other.2 && decide (other.1 <+: dbKey) && other.1 != dbKey

variable {key : Key} {rest tail : List (Key × Entry)} {cut : List UInt8}

/-- Several copies of a key are no beginning of the key of a name. -/
theorem not_prefix_of_copies {copied : Key} {count : Nat} (several : 2 ≤ count)
    (cleanCopied : CleanKey copied) (clean : CleanKey key) :
    ¬ (replicate count copied).flatten <+: key := by
  obtain ⟨tail, rfl, noZero⟩ := clean
  obtain ⟨copiedTail, rfl, _⟩ := cleanCopied
  obtain ⟨count, rfl⟩ := Nat.exists_eq_add_of_le several
  rintro ⟨rest, same⟩
  rw [Nat.add_comm, replicate_succ, replicate_succ, flatten_cons, flatten_cons,
    append_assoc, cons_append, List.cons.injEq] at same
  apply noZero
  rw [← same.2]
  simp

variable {dbKey : Key} {entry : Entry}

/-- What the cut behind an entry cuts off. -/
theorem prefix_cutBehind (filled : entry.rrs ≠ []) (cleanDb : CleanKey dbKey)
    (clean : CleanKey key) :
    (cutBehind dbKey entry ≠ [] ∧ cutBehind dbKey entry <+: key) ↔
      isSingleDelegation entry = true ∧ dbKey <+: key := by
  have notEmpty : dbKey ≠ [] := by
    obtain ⟨tail, rfl, _⟩ := cleanDb
    exact cons_ne_nil _ _
  rw [cutBehind, isSingleDelegation]
  cases entry.isDelegation with
  | false => simp
  | true =>
    by_cases single : entry.rrs.length = 1
    · simp [single, notEmpty]
    · have several : 2 ≤ entry.rrs.length := by
        have some := length_pos_of_ne_nil filled
        omega
      have junk := not_prefix_of_copies several cleanDb clean
      simp [single, junk]

/-- The cut during a visit: nothing, a key in front of the entries to be visited,
or something no key continues. -/
def CutBefore (cut : List UInt8) (rest : List (Key × Entry)) : Prop :=
  (∀ key, CleanKey key → ¬ (cut ≠ [] ∧ cut <+: key)) ∨ ∀ entry ∈ rest, compare cut entry.1 = .lt

theorem cutBefore_cutBehind (filled : entry.rrs ≠ []) (cleanDb : CleanKey dbKey)
    (behind : ∀ other ∈ rest, OrderedMap.Before compare (dbKey, entry) other) :
    CutBefore (cutBehind dbKey entry) rest := by
  by_cases single : isSingleDelegation entry = true
  · have whole : cutBehind dbKey entry = dbKey := by
      rw [isSingleDelegation, Bool.and_eq_true, beq_iff_eq] at single
      rw [cutBehind, single.1, single.2]
      simp
    rw [whole]
    exact Or.inr behind
  · refine Or.inl ?_
    intro key clean cuts
    exact single ((prefix_cutBehind filled cleanDb clean).mp cuts).1

/-- The first of several entries cuts a later one off, or another does. -/
theorem cutOff_cons (entry : Entry) (tail : List (Key × Entry)) (later : compare dbKey key = .lt) :
    cutOff ((dbKey, entry) :: tail) key =
      ((isSingleDelegation entry && decide (dbKey <+: key)) || cutOff tail key) := by
  have different : dbKey ≠ key := by
    rintro rfl
    have self : compare dbKey dbKey = .eq := Std.ReflCmp.compare_self
    cases self.symm.trans later
  rw [cutOff, any_cons, bne_iff_ne.mpr different, Bool.and_true]
  rfl

/-- No key begins an earlier one. -/
theorem cutOff_first (entry : Entry) (behind : ∀ other ∈ tail, compare dbKey other.1 = .lt) :
    cutOff ((dbKey, entry) :: tail) dbKey = false := by
  rw [cutOff, any_eq_false]
  intro other member cuts
  simp only [Bool.and_eq_true, decide_eq_true_eq, bne_iff_ne] at cuts
  rcases mem_cons.mp member with rfl | later
  · exact cuts.2 rfl
  · have le := Lexicographic.le_of_prefix other.1 dbKey cuts.1.2
    rw [Std.OrientedCmp.gt_of_lt (behind other later)] at le
    cases le

/-- A cut that passes one key cuts off none behind it. -/
theorem behindCut_passed (before : CutBefore cut ((dbKey, entry) :: tail))
    (passed : behindCut cut dbKey = false) (clean : CleanKey key)
    (later : compare dbKey key = .lt) : behindCut cut key = false := by
  rw [Bool.eq_false_iff, ne_eq, behindCut_iff]
  intro cuts
  rcases before with none | front
  · exact none key clean cuts
  · have above : (compare cut dbKey).isLE := by
      rw [front (dbKey, entry) mem_cons_self]
      rfl
    have below : (compare dbKey key).isLE := by
      rw [later]
      rfl
    have hit := (behindCut_iff cut dbKey).mpr
      ⟨cuts.1, Lexicographic.prefix_of_between cuts.2 above below⟩
    cases passed.symm.trans hit

/-- The entries that are sent are those that no entry of the visit, and not the
cut it starts with, cuts off. -/
theorem sentEntries_eq_filter (sorted : rest.Pairwise (OrderedMap.Before compare))
    (clean : ∀ entry ∈ rest, CleanKey entry.1) (filled : ∀ entry ∈ rest, entry.2.rrs ≠ [])
    (before : CutBefore cut rest) :
    sentEntries cut rest =
      rest.filter fun entry => !behindCut cut entry.1 && !cutOff rest entry.1 := by
  induction rest generalizing cut with
  | nil => rfl
  | cons head tail ih =>
    obtain ⟨dbKey, entry⟩ := head
    rw [pairwise_cons] at sorted
    obtain ⟨behind, sortedTail⟩ := sorted
    have cleanTail : ∀ other ∈ tail, CleanKey other.1 :=
      fun other member => clean other (mem_cons_of_mem _ member)
    have filledTail : ∀ other ∈ tail, other.2.rrs ≠ [] :=
      fun other member => filled other (mem_cons_of_mem _ member)
    have cleanDb : CleanKey dbKey := clean (dbKey, entry) mem_cons_self
    have filledDb : entry.rrs ≠ [] := filled (dbKey, entry) mem_cons_self
    rw [sentEntries, filter_cons, cutOff_first entry behind]
    cases hit : behindCut cut dbKey with
    | true =>
      have beforeTail : CutBefore cut tail :=
        before.imp_right fun front other member => front other (mem_cons_of_mem _ member)
      rw [if_pos rfl, if_neg (by decide), ih sortedTail cleanTail filledTail beforeTail]
      apply filter_congr
      intro other member
      rw [cutOff_cons entry tail (behind other member)]
      -- What continues a key behind the cut is behind the cut.
      cases cuts : decide (dbKey <+: other.1) with
      | false => rw [Bool.and_false, Bool.false_or]
      | true =>
        obtain ⟨some, continued⟩ := (behindCut_iff cut dbKey).mp hit
        rw [(behindCut_iff cut other.1).mpr ⟨some, continued.trans (of_decide_eq_true cuts)⟩]
        rfl
    | false =>
      rw [if_neg (by decide), if_pos (by decide),
        ih sortedTail cleanTail filledTail (cutBefore_cutBehind filledDb cleanDb behind)]
      congr 1
      apply filter_congr
      intro other member
      have cleanOther := cleanTail other member
      have same : behindCut (cutBehind dbKey entry) other.1 =
          (isSingleDelegation entry && decide (dbKey <+: other.1)) := by
        rw [Bool.eq_iff_iff, behindCut_iff,
          prefix_cutBehind filledDb cleanDb cleanOther, Bool.and_eq_true, decide_eq_true_eq]
      rw [cutOff_cons entry tail (behind other member), same,
        behindCut_passed before hit cleanOther (behind other member),
        Bool.not_or, Bool.not_false, Bool.true_and]

section Zone

variable (db : Db Entry) (zone : Name)

/-- The name belongs to the zone: it is not strictly below a delegation inside the
zone, and not part of another hosted zone below it. -/
def inZone (name : Name) : Bool :=
  decide (Name.Within zone name) &&
    !(entries db).any fun other =>
      decide (Name.Below zone (nameOf other.1)) &&
        ((other.2.isDelegation && decide (Name.Below (nameOf other.1) name)) ||
          (other.2.hasType RrType.soa && decide (Name.Within (nameOf other.1) name)))

def zoneEntries : List (Key × Entry) := (entries db).filter fun entry => inZone db zone (nameOf entry.1)

/-- The SOA of the zone, every other record of its entries once, and the SOA. -/
def SendsZone (answers : List Record) : Prop :=
  ∃ entry soa middle, storedAt db zone = some entry ∧ soa ∈ entry.rrs ∧ soa.type = RrType.soa ∧
    answers = soa.toRecord :: middle ++ [soa.toRecord] ∧
    (soa.toRecord :: middle).Perm ((rrsOf (zoneEntries db zone)).map (·.toRecord))

/-- The visit, which starts at the zone, reaches the key. -/
def reaches (key : Key) : Bool := (compare (ofName zone) key).isLE

/-- The visit leaves the name out: a reached entry whose only record is an NS
record has a name that ends the name, byte by byte. -/
def leavesOut (name : Name) : Bool :=
  (entries db).any fun other =>
    reaches zone other.1 && (isSingleDelegation other.2 && decide (nameOf other.1 <:+ name) &&
      nameOf other.1 != name)

/-- The entries that are reached and not left out. -/
def keptEntries : List (Key × Entry) :=
  ((entries db).filter fun other => reaches zone other.1).filter
    fun other => !leavesOut db zone (nameOf other.1)

theorem prefix_ofName (short long : Name) : ofName short <+: ofName long ↔ short <:+ long := by
  rw [ofName_eq, ofName_eq, cons_prefix_cons, List.reverse_prefix]
  exact and_iff_right rfl

theorem suffix_of_within {name : Name} (within : Name.Within zone name) : zone <:+ name := by
  rcases within with rfl | ⟨rfl, _⟩ | below
  · exact suffix_refl _
  · exact List.nil_suffix
  · exact (suffix_cons _ _).trans below

/-- Every name of the zone is reached. -/
theorem reaches_of_inZone {name : Name} (member : inZone db zone name = true) :
    reaches zone (ofName name) = true := by
  rw [inZone, Bool.and_eq_true, decide_eq_true_eq] at member
  exact Lexicographic.le_of_prefix _ _
    ((prefix_ofName zone name).mpr (suffix_of_within zone member.1))

variable {db}

/-- Between entries of names, bytes of keys and bytes of names say the same. -/
theorem cutOff_eq_leavesOut (wellFormed : WellFormed db) {key : Key} (clean : CleanKey key) :
    cutOff ((entries db).filter fun entry => reaches zone entry.1) key =
      leavesOut db zone (nameOf key) := by
  rw [cutOff, any_filter, leavesOut, Bool.eq_iff_iff, any_eq_true, any_eq_true]
  have same (other : Key × Entry) (member : other ∈ entries db) :
      (other.1 <+: key ↔ nameOf other.1 <:+ nameOf key) ∧
        (other.1 = key ↔ nameOf other.1 = nameOf key) := by
    have named := (wellFormed.clean other.1 other.2 member).eq_ofName
    have keyNamed := clean.eq_ofName
    constructor
    · rw [← prefix_ofName, ← named, ← keyNamed]
    · constructor
      · intro equal
        rw [equal]
      · intro equal
        rw [named, equal, ← keyNamed]
  constructor <;>
  · rintro ⟨other, member, cuts⟩
    refine ⟨other, member, ?_⟩
    simpa [same other member] using cuts

/-- The entries sent in a transfer of a zone that is there. -/
theorem sent_eq (wellFormed : WellFormed db)
    (found : storedAt db zone = some entry) (isZone : entry.hasType RrType.soa = true) :
    ∃ rest, OrderedMap.seek (Transaction.view db {} .entry) (ofName zone) =
        (ofName zone, entry) :: rest ∧
      (∀ other ∈ rest, other ∈ entries db) ∧
      (ofName zone, entry) :: sentEntries [] rest = keptEntries db zone := by
  have visited := OrderedMap.seek_present (db.families .entry) found
  generalize OrderedMap.above (db.families .entry) (ofName zone) = rest at visited
  have seek : (entries db).filter (fun other => reaches zone other.1) =
      (ofName zone, entry) :: rest := visited
  have stored : ∀ other ∈ (ofName zone, entry) :: rest, other ∈ entries db := by
    intro other member
    rw [← seek] at member
    exact mem_of_mem_filter member
  have sorted := OrderedMap.seek_sorted (db.families .entry) (ofName zone)
  rw [visited, pairwise_cons] at sorted
  have clean : ∀ other ∈ rest, CleanKey other.1 := fun other member =>
    wellFormed.clean other.1 other.2 (stored other (mem_cons_of_mem _ member))
  have filled : ∀ other ∈ rest, other.2.rrs ≠ [] := fun other member =>
    wellFormed.filled other.1 other.2 (stored other (mem_cons_of_mem _ member))
  have noCut : isSingleDelegation entry = false := by
    rw [isSingleDelegation, Entry.isDelegation, isZone]
    simp
  refine ⟨rest, visited, fun other member => stored other (mem_cons_of_mem _ member), ?_⟩
  rw [sentEntries_eq_filter sorted.2 clean filled
    (Or.inl fun key _ cuts => cuts.1 rfl), keptEntries, seek]
  have cleanZone := wellFormed.clean _ entry (stored _ mem_cons_self)
  have here : leavesOut db zone (nameOf (ofName zone)) = false := by
    rw [← cutOff_eq_leavesOut zone wellFormed cleanZone, seek]
    exact cutOff_first entry sorted.1
  rw [filter_cons, if_pos (by rw [here]; rfl)]
  congr 1
  apply filter_congr
  intro other member
  rw [← cutOff_eq_leavesOut zone wellFormed (clean other member), seek,
    cutOff_cons entry rest (sorted.1 other member), noCut]
  rfl

/-- An entry is among some of the entries exactly when they have a record of its
name. -/
theorem mem_iff_record (wellFormed : WellFormed db) {some : List (Key × Entry)}
    (stored : ∀ other ∈ some, other ∈ entries db) {entry : Key × Entry}
    (member : entry ∈ entries db) :
    entry ∈ some ↔ ∃ rr ∈ (rrsOf some).map (·.toRecord), rr.key = nameOf entry.1 := by
  constructor
  · intro listed
    obtain ⟨rr, inEntry⟩ := exists_mem_of_ne_nil _ (wellFormed.filled entry.1 entry.2 member)
    refine ⟨rr.toRecord, mem_map_of_mem ?_, wellFormed.owners entry.1 entry.2 member rr inEntry⟩
    exact mem_flatMap.mpr ⟨entry, listed, inEntry⟩
  · rintro ⟨record, mapped, owner⟩
    obtain ⟨rr, inRrs, rfl⟩ := mem_map.mp mapped
    obtain ⟨other, listed, inEntry⟩ := mem_flatMap.mp inRrs
    have otherStored := stored other listed
    have otherOwner := wellFormed.owners other.1 other.2 otherStored rr inEntry
    have sameKey : other.1 = entry.1 := by
      rw [(wellFormed.clean other.1 other.2 otherStored).eq_ofName,
        (wellFormed.clean entry.1 entry.2 member).eq_ofName, ← otherOwner, owner]
    have sameEntry : other.2 = entry.2 := by
      have first := (mem_entries db other.1 other.2).mp otherStored
      have second := (mem_entries db entry.1 entry.2).mp member
      rw [sameKey, second] at first
      exact (Option.some.inj first).symm
    rw [← Prod.ext sameKey sameEntry]
    exact listed

theorem zoneEntries_eq (wellFormed : WellFormed db) :
    zoneEntries db zone = ((entries db).filter fun other => reaches zone other.1).filter
      fun other => inZone db zone (nameOf other.1) := by
  rw [zoneEntries, filter_filter]
  apply filter_congr
  intro other member
  cases belongs : inZone db zone (nameOf other.1) with
  | false => rw [Bool.false_and]
  | true =>
    rw [(wellFormed.clean other.1 other.2 member).eq_ofName,
      reaches_of_inZone db zone belongs, Bool.and_true]

/-- If what is left out is what does not belong to the zone, the zone is kept. -/
theorem keptEntries_eq_zoneEntries (wellFormed : WellFormed db)
    (agree : ∀ other ∈ entries db, reaches zone other.1 = true →
      leavesOut db zone (nameOf other.1) = !inZone db zone (nameOf other.1)) :
    keptEntries db zone = zoneEntries db zone := by
  rw [keptEntries, zoneEntries_eq zone wellFormed]
  apply filter_congr
  intro other member
  obtain ⟨stored, reached⟩ := mem_filter.mp member
  rw [agree other stored reached, Bool.not_not]

/-- If the kept entries have the records of the zone, the two agree on every
entry: an entry is told by the owner of its records. -/
theorem leavesOut_of_perm (wellFormed : WellFormed db)
    (perm : ((rrsOf (keptEntries db zone)).map (·.toRecord)).Perm
      ((rrsOf (zoneEntries db zone)).map (·.toRecord))) (other : Key × Entry)
    (member : other ∈ entries db) (reached : reaches zone other.1 = true) :
    leavesOut db zone (nameOf other.1) = !inZone db zone (nameOf other.1) := by
  have kept : other ∈ keptEntries db zone ↔ leavesOut db zone (nameOf other.1) = false := by
    rw [keptEntries, mem_filter, mem_filter, Bool.not_eq_true']
    exact and_iff_right ⟨member, reached⟩
  have belongs : other ∈ zoneEntries db zone ↔ inZone db zone (nameOf other.1) = true := by
    rw [zoneEntries, mem_filter]
    exact and_iff_right member
  have keptStored : ∀ entry ∈ keptEntries db zone, entry ∈ entries db :=
    fun _ listed => mem_of_mem_filter (mem_of_mem_filter listed)
  have zoneStored : ∀ entry ∈ zoneEntries db zone, entry ∈ entries db :=
    fun _ listed => mem_of_mem_filter listed
  have same : other ∈ keptEntries db zone ↔ other ∈ zoneEntries db zone := by
    rw [mem_iff_record wellFormed keptStored member, mem_iff_record wellFormed zoneStored member]
    exact exists_congr fun rr => and_congr_left' perm.mem_iff
  rw [kept, belongs] at same
  cases left : leavesOut db zone (nameOf other.1) with
  | false => rw [same.mp left, Bool.not_true]
  | true =>
    cases inside : inZone db zone (nameOf other.1) with
    | false => rfl
    | true => cases left.symm.trans (same.mpr inside)

/-- A transfer sends exactly its zone when, on every entry from the zone on, what
the visit leaves out is what does not belong to the zone, and the records of the
zone fit into replies. -/
theorem doAxfr_sends_zone_iff (request : TransferRequest) (sender : Sender) (wellFormed : WellFormed db)
    (entry : Entry) (found : storedAt db zone = some entry)
    (isZone : entry.hasType RrType.soa = true) (fresh : sender.answers = []) :
    (∃ visit, doAxfr request db {} zone sender = .ok visit ∧
        SendsZone db zone visit.sender.answers) ↔
      (∀ other ∈ entries db, reaches zone other.1 = true →
        leavesOut db zone (nameOf other.1) = !inZone db zone (nameOf other.1)) ∧
      (Sender.offerAll request (rrsOf (zoneEntries db zone) ++ entry.rrs.take 1)
        sender).isOk = true := by
  obtain ⟨soa, others, rrs, isSoa⟩ := wellFormed.soa_first
    ((mem_entries db _ entry).mpr found) isZone
  obtain ⟨rest, visited, stored, sent⟩ := sent_eq zone wellFormed found isZone
  have sameClass : ∀ other ∈ rest,
      RealKey.isSameKeyClass (ofName zone) other.1 = true := by
    intro other member
    obtain ⟨tail, equal, _⟩ := wellFormed.clean other.1 other.2 (stored other member)
    rw [equal, ofName_eq, RealKey.isSameKeyClass, beq_self_eq_true]
  have equation := doAxfr_eq request sender rrs isSoa visited
    sameClass
  have allSent : entry.rrs ++ rrsOf (sentEntries [] rest) = rrsOf (keptEntries db zone) := by
    rw [← sent]
    rfl
  rw [allSent] at equation
  have lastSoa : entry.rrs.take 1 = [soa] := by rw [rrs, take_succ_cons, take_zero]
  rw [lastSoa]
  constructor
  · rintro ⟨visit, returned, entry', soa', middle, _, _, _, answers, perm⟩
    rw [returned, Run.bind_ok] at equation
    have sentAnswers := Sender.offerAll_answers equation.symm
    rw [fresh, nil_append, map_append, answers] at sentAnswers
    obtain ⟨middleSame, _⟩ := append_inj' sentAnswers rfl
    rw [middleSame] at perm
    have agree := leavesOut_of_perm zone wellFormed perm
    refine ⟨agree, ?_⟩
    rw [← keptEntries_eq_zoneEntries zone wellFormed agree, ← equation]
    rfl
  · rintro ⟨agree, fits⟩
    obtain ⟨last, offered⟩ := (Run.isOk_iff _).mp fits
    rw [keptEntries_eq_zoneEntries zone wellFormed agree, offered, Run.bind_eq_ok] at equation
    obtain ⟨visit, returned, same⟩ := equation
    cases same
    have answers := Sender.offerAll_answers offered
    rw [fresh, nil_append, map_append] at answers
    have begins : rrsOf (zoneEntries db zone) = soa :: others ++ rrsOf (sentEntries [] rest) := by
      rw [← keptEntries_eq_zoneEntries zone wellFormed agree, ← allSent, rrs]
    refine ⟨visit, returned, entry, soa,
      (others ++ rrsOf (sentEntries [] rest)).map (·.toRecord), found, ?_, isSoa, ?_, ?_⟩
    · rw [rrs]
      exact mem_cons_self
    · rw [answers, begins]
      rfl
    · rw [begins]
      exact List.Perm.refl _

end Zone

/-- An entry with nothing but a SOA. -/
def soaEntry (name : Name) : Entry :=
  ⟨none, 0, [newRr name false RrType.soa 300
    ([0, 0] ++ be32 1 ++ replicate 16 0)]⟩

/-- A store with these entries. -/
def storing (stored : List (Name × Entry)) : Db Entry where
  families := fun category =>
    if category = .entry then
      stored.foldl (fun family item => family.insert (ofName item.1) item.2) ∅
    else ∅
  trxlog := ∅

/-- A store that hosts these zones, each with nothing but its SOA. -/
def hosting (zones : List Name) : Db Entry := storing (zones.map fun zone => (zone, soaEntry zone))

/-- A request for the zone `a` over TCP, with the default sizes. -/
def requestForA : TransferRequest where
  request := {
    span := [0x12, 0x34, 0, 0, 0, 1, 0, 0, 0, 0, 0, 0, 1, 0x61, 0, 0, 252, 0, 1]
    maxReplyBytes := 12288
    isTcp := true }
  message := ⟨[some ⟨true, [⟨252, 12⟩], 7⟩, none, none, none]⟩
  maxLargeTcpBufferSize := 64511
  maxUdpBufferSizeWithOpt := 4096

/-- The reply to it, as it is begun. -/
def senderForA : Sender where
  reply := { mb := {
    buffer := [0x12, 0x34, 0x84, 0, 0, 1, 0, 0, 0, 0, 0, 0, 1, 0x61, 0, 0, 252, 0, 1]
    maxBufferSize := 12288
    labels := [⟨12, 15, 2⟩] } }

/-- `processRequest` parses the request and begins the reply. -/
abbrev Begins (request : TransferRequest) (sender : Sender) : Prop :=
  Message.createIndex request.request.span = .ok request.message ∧
    Wire.DnsEngine.createBuilder request.request request.message request.request.maxReplyBytes.toNat
      request.maxUdpBufferSizeWithOpt = .ok (true, sender.reply.mb)

theorem wellFormed_of_entries {db : Db Entry} (stored : List (Name × Entry))
    (listed : entries db = stored.map fun item => (ofName item.1, item.2))
    (fine : ∀ item ∈ stored, (0 : UInt8) ∉ item.1 ∧ item.2.rrs ≠ [] ∧
      item.2.rrs.Pairwise (fun first second => indexLess second first = false) ∧
      ∀ rr ∈ item.2.rrs, rr.key = item.1) : WellFormed db := by
  have from_ (key : Key) (entry : Entry) (member : (key, entry) ∈ entries db) :
      ∃ item ∈ stored, key = ofName item.1 ∧ entry = item.2 := by
    rw [listed, mem_map] at member
    obtain ⟨item, inStored, same⟩ := member
    cases same
    exact ⟨item, inStored, rfl, rfl⟩
  refine ⟨?_, ?_, ?_, ?_⟩
  all_goals
    intro key entry member
    obtain ⟨item, inStored, rfl, rfl⟩ := from_ key entry member
    obtain ⟨noZero, filled, sorted, owners⟩ := fine item inStored
  · exact ⟨item.1.reverse, ofName_eq item.1, by rwa [mem_reverse]⟩
  · exact filled
  · exact sorted
  · rwa [nameOf_ofName]

/-- The zone `a` with the address of `w.a` and the delegation `s.a`, behind which there is the
address of `x.s.a`. -/
def delegating : List (Name × Entry) :=
  [([0x61], soaEntry [0x61]),
    ([0x73, 0x2E, 0x61], ⟨none, 1, [newRr [0x73, 0x2E, 0x61] false RrType.ns 300 [1, 0x6E, 0]]⟩),
    ([0x78, 0x2E, 0x73, 0x2E, 0x61],
      ⟨none, 1, [newRr [0x78, 0x2E, 0x73, 0x2E, 0x61] false RrType.a 300 [10, 0, 0, 1]]⟩),
    ([0x77, 0x2E, 0x61], ⟨none, 1, [newRr [0x77, 0x2E, 0x61] false RrType.a 300 [10, 0, 0, 2],
      newRr [0x77, 0x2E, 0x61] true RrType.a 300 [10, 0, 0, 3]]⟩)]

/-- What is behind the delegation is left out, and all else is sent. -/
theorem delegating_zone_sent : Begins requestForA senderForA ∧
    ∃ visit, doAxfr requestForA (storing delegating) {} [0x61] senderForA = .ok visit ∧
      SendsZone (storing delegating) [0x61] visit.sender.answers := by
  refine ⟨by decide +kernel, (doAxfr_sends_zone_iff [0x61] requestForA senderForA
    (wellFormed_of_entries delegating (by decide +kernel) (by decide +kernel))
    (soaEntry [0x61]) (by decide +kernel) (by decide +kernel) rfl).mpr ⟨?_, ?_⟩⟩
  · decide +kernel
  · decide +kernel

/-- A transfer of the zone `a` also sends the zone `b`. -/
theorem neighbour_zone_sent :
    Begins requestForA senderForA ∧ WellFormed (hosting [[0x61], [0x62]]) ∧
      storedAt (hosting [[0x61], [0x62]]) [0x61] = some (soaEntry [0x61]) ∧
      ¬ ∃ visit, doAxfr requestForA (hosting [[0x61], [0x62]]) {} [0x61] senderForA = .ok visit ∧
        SendsZone (hosting [[0x61], [0x62]]) [0x61] visit.sender.answers := by
  refine ⟨by decide +kernel, wellFormed_of_entries ([[0x61], [0x62]].map fun zone =>
    (zone, soaEntry zone)) (by decide +kernel) (by decide +kernel), by decide +kernel, ?_⟩
  rintro ⟨visit, returned, entry, soa, middle, _, _, _, answers, perm⟩
  have sent : (doAxfr requestForA (hosting [[0x61], [0x62]]) {} [0x61] senderForA >>=
      fun visit => .ok visit.sender.answers.length) = .ok 3 := by decide +kernel
  have zoneSize : ((rrsOf (zoneEntries (hosting [[0x61], [0x62]]) [0x61])).map
      (·.toRecord)).length = 1 := by decide +kernel
  rw [returned, Run.bind_ok, answers, length_append, length_singleton] at sent
  have total := perm.length_eq
  rw [zoneSize] at total
  rw [total] at sent
  cases sent

end Nsblast.DnsEngine
