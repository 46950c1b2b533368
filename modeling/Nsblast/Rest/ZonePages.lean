import Nsblast.Accounts.RoleFilter
import Nsblast.Rest.ListZones

/-!
# Paging through a zone

A client lists a zone page by page, each page from the last name of the one before. The walk
over the keys begins at the zone and ends with the first key that is not in the zone. Keys are
reversed names, so a zone is followed by the names with one more character in front of it, and
these come in the order of that character. The names below the zone have a dot there; a
character that sorts before the dot, such as a hyphen, puts a name that has nothing to do with
the zone between the zone and the names below it.

The pages are complete exactly if no such name is stored, and if the name at the end of each
page that is followed by another is one that `validateFqdn` accepts and is shown in the case in
which it is stored. A page size of zero does not come to an end, and a listing with records
has no page where one of them cannot be written.
-/

namespace Nsblast.RestApi

open AuthMgr List Name OrderedMap Run
open RealKey (isInZone ofName ofName_eq)

section keys

theorem isInZone_ofName (zone name : Name) :
    isInZone (ofName name) zone = true ↔ Encloses zone name := by
  constructor
  · intro inZone
    have encloses := isInZone_encloses inZone
    rwa [ofName_eq, nameOf, tail_cons, reverse_reverse] at encloses
  · rintro (rfl | ⟨front, rfl⟩)
    · simp [isInZone, ofName_eq]
    · simp [isInZone, ofName_eq, List.isPrefixOf_iff_prefix]

variable {name zone : Name}

/-- A zone comes before the names below it. -/
theorem ofName_isLE_of_encloses (encloses : Encloses zone name) :
    (compare (ofName zone) (ofName name)).isLE := by
  apply Lexicographic.le_of_prefix
  rw [ofName_eq, ofName_eq, cons_prefix_cons]
  refine ⟨rfl, ?_⟩
  rcases encloses with rfl | ⟨front, rfl⟩
  · exact prefix_rfl
  · simp

/-- The request `isSameZone` is made for accepts what lies in the zone. -/
theorem isSameZone_of_encloses (encloses : Encloses zone name) :
    isSameZone zone name = true := by
  rcases encloses with rfl | ⟨front, rfl⟩
  · simp [isSameZone, compareCaseInsensitive]
  · have start : (front ++ 0x2E :: zone).length - zone.length = front.length + 1 := by
      simp only [length_append, length_cons]
      omega
    have rest : (front ++ 0x2E :: zone).drop (front.length + 1) = zone := by
      rw [drop_append]
      simp
    have long : ¬ (front ++ 0x2E :: zone).length < zone.length := by omega
    simp only [isSameZone, if_neg long, start, rest, Nat.add_sub_cancel]
    simp [compareCaseInsensitive]

/-- In lower case, both tests for a name of a zone accept what the zone encloses. -/
theorem zone_tests_agree (zone name : Name) (zoneLower : toLower zone = zone)
    (nameLower : toLower name = name) :
    (isInZone (ofName name) zone = true ↔ Encloses zone name) ∧
      (isSameZone zone name = true ↔ Encloses zone name) := by
  refine ⟨isInZone_ofName zone name, ?_, isSameZone_of_encloses⟩
  intro same
  obtain ⟨front, back, rfl, isZone, boundary⟩ := Session.isSameZone_split same
  rw [toLower, map_append] at nameLower
  obtain ⟨_, backLower⟩ := append_inj nameLower (length_map _)
  have isBack : back = zone := backLower.symm.trans (isZone.trans zoneLower)
  subst isBack
  rcases boundary with rfl | dotted
  · exact .inl rfl
  · obtain ⟨label, rfl⟩ := getLast?_eq_some_iff.mp dotted
    exact .inr ⟨label, append_assoc _ _ _⟩

theorem zone_tests_agree_below :
    (isInZone (ofName [0x61, 0x2E, 0x7A]) [0x7A] = true ↔ Encloses [0x7A] [0x61, 0x2E, 0x7A]) ∧
      (isSameZone [0x7A] [0x61, 0x2E, 0x7A] = true ↔ Encloses [0x7A] [0x61, 0x2E, 0x7A]) :=
  zone_tests_agree _ _ (by decide) (by decide)

/-- Another case sorts before the lower case. -/
theorem ofName_lt_of_case {shown : Name} (isLower : toLower shown = name)
    (differs : shown ≠ name) : compare (ofName shown) (ofName name) = .lt := by
  have self : compare (0 : UInt8) 0 = .eq := Std.ReflCmp.compare_self
  have less := compare_other_case [] []
    (by rw [← isLower, toLower, toLower, map_reverse])
    (fun same => differs (reverse_inj.mp same))
  rw [List.append_nil, List.append_nil] at less
  rw [ofName_eq, ofName_eq, List.compare_cons_cons, self, Ordering.eq_then, less]

/-- The entries of the store are found under their names in lower case. -/
def EntryKeys (db : Db Value) : Prop :=
  ∀ key value, (db.families .entry)[key]? = some value → ∃ name entry, toLower name = name ∧
    key = ofName name ∧ value = .entry entry ∧ ∀ rr ∈ entry.rrs, toLower rr.owner = name

end keys

section shown

/-- The records of an entry, those that can be written. -/
def writtenRrs (rrs : List StoredRr) : List RecordJson :=
  rrs.filterMap fun rr =>
    match toJson rr.type rr.rdata with
    | .ok json => some json
    | _ => none

/-- What a listing shows of an entry. -/
def shownEntry (kind : KindOfListing) (item : Key × Value) : Listed :=
  if kind = .verbose then
    match item.2 with
    | .entry ⟨_, _, first :: rest⟩ => .entry first.owner first.ttl (writtenRrs (first :: rest))
    | _ => .name (nameOf item.1)
  else .name (nameOf item.1)

/-- All that is to be shown of an entry can be written. -/
def Shows (kind : KindOfListing) (value : Value) : Prop :=
  kind = .verbose → ∀ entry, value = .entry entry → ∀ rr ∈ entry.rrs, Presentable rr

theorem mapM_toJson {rrs : List StoredRr} (all : ∀ rr ∈ rrs, Presentable rr) :
    (rrs.mapM fun rr => toJson rr.type rr.rdata) = .ok (writtenRrs rrs) := by
  induction rrs with
  | nil => rfl
  | cons rr rest ih =>
    obtain ⟨json, written⟩ := all rr mem_cons_self
    have later := ih fun other member => all other (mem_cons_of_mem _ member)
    have one : writtenRrs (rr :: rest) = json :: writtenRrs rest := by
      rw [writtenRrs, filterMap_cons, written]
      rfl
    rw [mapM_cons, written, bind_ok, later, bind_ok, one]
    rfl

variable {db : Db Value} (entryKeys : EntryKeys db) (kind : KindOfListing) {item : Key × Value}
  (stored : (db.families .entry)[item.1]? = some item.2)
include entryKeys stored

theorem listed_eq (shows : Shows kind item.2) :
    listed kind item = .ok (shownEntry kind item) := by
  obtain ⟨name, ⟨_, _, rrs⟩, _, _, isEntry, _⟩ := entryKeys _ _ stored
  rw [listed, shownEntry, isEntry]
  split
  · rename_i verbose
    have all := mapM_toJson (shows verbose _ isEntry)
    cases rrs with
    | nil => rfl
    | cons first rest =>
      dsimp only at all ⊢
      rw [all, bind_ok]
  · rfl

/-- Something is shown only of an entry that can be written. -/
theorem listed_eq_ok {shown : Listed} (isShown : listed kind item = .ok shown) :
    Shows kind item.2 ∧ shown = shownEntry kind item := by
  obtain ⟨name, ⟨tenantId, zoneLen, rrs⟩, _, _, isEntry, _⟩ := entryKeys _ _ stored
  have shows : Shows kind item.2 := by
    rintro rfl entry same rr member
    rw [listed, if_pos rfl, isEntry] at isShown
    cases isEntry.symm.trans same
    cases rrs with
    | nil => cases member
    | cons first rest =>
      rw [bind_eq_ok] at isShown
      obtain ⟨written, isWritten, _⟩ := isShown
      obtain ⟨json, _, isJson⟩ := exists_of_forall₂ (mapM_forall₂ isWritten).flip member
      exact ⟨json, isJson⟩
  rw [listed_eq entryKeys kind stored shows] at isShown
  exact ⟨shows, (ok.inj isShown).symm⟩

theorem toLower_shownEntry : toLower (shownEntry kind item).fqdn = nameOf item.1 := by
  obtain ⟨name, ⟨_, _, rrs⟩, isLower, isKey, isEntry, owners⟩ := entryKeys _ _ stored
  rw [isKey, nameOf_ofName, shownEntry, isEntry, isKey, nameOf_ofName]
  split
  · cases rrs with
    | nil => exact isLower
    | cons first rest => exact owners first mem_cons_self
  · exact isLower

end shown

section walk

/-- The loop shows the first keys that are in the zone, up to the size of the page. -/
theorem visit_eq (key : Key) (zone : Name) (pageSize count : Nat) (room : count ≤ pageSize)
    (items : List (Key × Value)) (same : ∀ item ∈ items, RealKey.isSameKeyClass key item.1 = true) :
    visit key zone pageSize count items =
      ((items.takeWhile fun item => isInZone item.1 zone).take (pageSize - count),
        decide (pageSize - count < (items.takeWhile fun item => isInZone item.1 zone).length)) := by
  induction items generalizing count with
  | nil => simp [visit]
  | cons item rest ih =>
    have own := same item mem_cons_self
    by_cases inZone : isInZone item.1 zone = true
    · rw [takeWhile_cons_of_pos (by exact inZone)]
      by_cases full : count + 1 > pageSize
      · have none : pageSize - count = 0 := by omega
        simp [visit, own, inZone, full, none]
      · have one : pageSize - count = pageSize - (count + 1) + 1 := by omega
        have later := ih (count + 1) (by omega) fun other member => same other (mem_cons_of_mem _ member)
        simp [visit, own, inZone, full, later, one]
    · rw [takeWhile_cons_of_neg (by exact inZone)]
      simp [visit, own, inZone]

/-- The last name of a full page. -/
theorem getKeys_take {list : List Listed} {size : Nat} {last : Listed} (positive : 0 < size)
    (isLast : list[size - 1]? = some last) : (getKeys (list.take size) true).2 = last.fqdn := by
  have atEnd : (list.take size).getLast? = some last := by
    rw [getLast?_take, if_neg (by omega), isLast]
    rfl
  rw [getKeys, atEnd]
  cases isPage : list.take size with
  | nil =>
    rw [isPage] at atEnd
    cases atEnd
  | cons first rest => rfl

end walk

section pages

/-- A request for a zone that is answered, page by page in forward direction. -/
structure AnswersZone (env : ListEnv) (db : Db Value) (login : Login) (argument : Option Bytes)
    (target : Name) (query : ListQuery) (kind : KindOfListing) (pageSize : Nat) : Prop where
  session : ∃ session tenant all ops,
    getSessionAndTenant env.toZoneEnv db login argument true = .ok (session, tenant, all) ∧
    (isAllowed env.fuel session .readZone (toLower target) true).exec db.entryContent = .ok (true, ops)
  kind : getKindOfListing query.kind [.default, .verbose] = .ok kind
  limit : getPageSize env query.limit = .ok pageSize
  forward : getDirection query.direction = .ok true

/-- The keys of all names in a zone. -/
def zoneItems (db : Db Value) (zone : Name) : List (Key × Value) :=
  (db.families .entry).toList.filter fun item => isInZone item.1 zone

/-- The keys from the zone on, up to the first that is not in it. -/
def zoneRun (db : Db Value) (zone : Name) : List (Key × Value) :=
  (seek (db.families .entry) (ofName zone)).takeWhile fun item =>
    isInZone item.1 zone

variable {start zone : Name} {item : Key × Value} {count : Nat}

variable {db : Db Value} {page : Page}

theorem stored_of_mem_zoneRun (member : item ∈ zoneRun db zone) :
    (db.families .entry)[item.1]? = some item.2 :=
  ((mem_seek _ _ _).mp ((List.takeWhile_prefix _).subset member)).1

theorem encloses_of_mem_zoneRun (member : item ∈ zoneRun db zone) :
    Encloses zone (nameOf item.1) :=
  isInZone_encloses (mem_takeWhile_imp (p := fun item : Key × Value => isInZone item.1 zone) member)

/-- The name that is shown of the key is accepted as a cursor, and leads to the key. -/
def Leads (kind : KindOfListing) (item : Key × Value) : Prop :=
  validateFqdn (shownEntry kind item).fqdn = true ∧ (shownEntry kind item).fqdn = nameOf item.1

/-- The page that shows the first of the keys that are left. -/
def pageOf (env : ListEnv) (kind : KindOfListing) (pageSize : Nat) (left : List (Key × Value)) :
    Page :=
  let list := (left.take pageSize).map (shownEntry kind)
  ⟨decide (pageSize < left.length), pageSize, (getKeys list true).1, (getKeys list true).2,
    env.names.sort list⟩

variable {env : ListEnv} {db : Db Value} {login : Login} {argument : Option Bytes} {target : Name}
  {query : ListQuery} {kind : KindOfListing} {pageSize : Nat}
  (answers : AnswersZone env db login argument target query kind pageSize) (entryKeys : EntryKeys db)
  (shows : ∀ item ∈ zoneItems db (toLower target), Shows kind item.2)
include answers entryKeys

omit answers entryKeys in
/-- A page is made of entries that can be written. -/
theorem listZone_shows (answers : AnswersZone env db login argument target query kind pageSize)
    (entryKeys : EntryKeys db)
    (returned : listZone env db login argument target { query with start } = .ok page)
    {shown : Listed} (member : shown ∈ page.value) :
    ∃ item : Key × Value, (db.families .entry)[item.1]? = some item.2 ∧ Shows kind item.2 ∧
      toLower shown.fqdn = nameOf item.1 := by
  simp only [listZone, bind_eq_ok] at returned
  obtain ⟨_, _, found, isKind, _, _, _, _, size, _, ⟨origin, skipKey, forward⟩, _, list, isList,
    same⟩ := returned
  cases same
  cases answers.kind.symm.trans isKind
  obtain ⟨item, visited, isShown⟩ :=
    mapM_mem isList ((env.names.mem_sort list shown).mp member)
  have stored : (db.families .entry)[item.1]? = some item.2 :=
    mem_of_mem_fromPrev _ (mem_visit visited).1
  obtain ⟨shows, rfl⟩ := listed_eq_ok entryKeys kind stored isShown
  exact ⟨item, stored, shows, toLower_shownEntry entryKeys kind stored⟩

include shows

omit answers entryKeys shows in
/-- A name to start at is accepted as it is. -/
theorem getStart_eq_ok {origin : Name} {skipKey forward : Bool} (given : start ≠ [])
    (isStart : getStart zone { query with start } = .ok (origin, skipKey, forward)) :
    validateFqdn start = true ∧ origin = start ∧ skipKey = true ∧
      getDirection query.direction = .ok forward := by
  simp only [getStart, given, if_false, bind_eq_ok] at isStart
  obtain ⟨direction, isDirection, _, valid, _, _, same⟩ := isStart
  cases same
  refine ⟨?_, rfl, rfl, isDirection⟩
  by_contra invalid
  rw [Bool.not_eq_true] at invalid
  rw [invalid] at valid
  cases valid

/-- A request whose start is accepted shows the keys from there on. -/
theorem listZone_eq (start origin : Name) (skipKey : Bool)
    (isStart : getStart (toLower target) { query with start } = .ok (origin, skipKey, true)) :
    listZone env db login argument target { query with start } = .ok (pageOf env kind pageSize
      ((fromPrev (db.families .entry) (ofName origin) skipKey true).takeWhile
        fun item => isInZone item.1 (toLower target))) := by
  have stored : ∀ item ∈ fromPrev (db.families .entry) (ofName origin) skipKey true,
      (db.families .entry)[item.1]? = some item.2 := fun item member =>
    mem_of_mem_fromPrev _ member
  have visited := visit_eq (ofName origin) (toLower target) pageSize 0 (Nat.zero_le _)
    (fromPrev (db.families .entry) (ofName origin) skipKey true) (by
      intro item member
      obtain ⟨name, _, _, isKey, _⟩ := entryKeys _ _ (stored item member)
      rw [isKey, ofName_eq, ofName_eq]
      rfl)
  rw [Nat.sub_zero] at visited
  have shown : (((fromPrev (db.families .entry) (ofName origin) skipKey true).takeWhile
        fun item => isInZone item.1 (toLower target)).take pageSize).mapM (listed kind) =
      .ok ((((fromPrev (db.families .entry) (ofName origin) skipKey true).takeWhile
        fun item => isInZone item.1 (toLower target)).take pageSize).map (shownEntry kind)) := by
    apply mapM_of_forall₂
    rw [forall₂_map_right_iff, forall₂_same]
    intro item member
    have inRun := mem_of_mem_take member
    have isStored := stored item ((List.takeWhile_prefix _).subset inRun)
    apply listed_eq entryKeys kind isStored
    apply shows
    rw [zoneItems, mem_filter, Std.ExtTreeMap.mem_toList_iff_getElem?_eq_some]
    exact ⟨isStored, mem_takeWhile_imp
      (p := fun item : Key × Value => isInZone item.1 (toLower target)) inRun⟩
  obtain ⟨session, tenant, all, ops, isSession, allowed⟩ := answers.session
  simp only [listZone, isSession, bind_ok, answers.kind, allowed, Bool.not_true, throwIf,
    Bool.false_eq_true, if_false, answers.limit, isStart, visited]
  rw [shown]
  rfl

variable {apex : Value} (isStored : (db.families .entry)[ofName (toLower target)]? = some apex)
include isStored

/-- A cursor behind so many keys of the run. -/
def StandsAt (run : List (Key × Value)) (kind : KindOfListing) (count : Nat) (start : Name) :
    Prop :=
  (count = 0 ∧ start = []) ∨ ∃ item, 0 < count ∧ run[count - 1]? = some item ∧ Leads kind item ∧
    start = (shownEntry kind item).fqdn

/-- From such a cursor, the rest of the run is shown. -/
theorem listZone_at (stands : StandsAt (zoneRun db (toLower target)) kind count start) :
    listZone env db login argument target { query with start } =
      .ok (pageOf env kind pageSize ((zoneRun db (toLower target)).drop count)) := by
  rcases stands with ⟨rfl, rfl⟩ | ⟨item, positive, isItem, ⟨valid, own⟩, rfl⟩
  · rw [listZone_eq answers entryKeys shows [] (toLower target) false rfl, fromPrev_present _ isStored]
    rfl
  · have member : item ∈ zoneRun db (toLower target) := mem_of_getElem? isItem
    have given : (shownEntry kind item).fqdn ≠ [] := by
      intro none
      rw [none, validateFqdn_nil] at valid
      cases valid
    have same : isSameZone (toLower target) (shownEntry kind item).fqdn = true := by
      rw [own]
      exact isSameZone_of_encloses (encloses_of_mem_zoneRun member)
    obtain ⟨name, _, _, isKey, _⟩ := entryKeys _ _ (stored_of_mem_zoneRun member)
    have isOwn : ofName (shownEntry kind item).fqdn = item.1 := by
      rw [own, isKey, nameOf_ofName]
    rw [listZone_eq answers entryKeys shows (shownEntry kind item).fqdn (shownEntry kind item).fqdn true (by
      simp [getStart, given, answers.forward, valid, same, throwIf]), fromPrev_forward,
      isOwn]
    have behind := seek_takeWhile_behind (db.families .entry) isItem
    rw [Nat.sub_add_cancel positive] at behind
    rw [behind]
    rfl

omit answers shows isStored in
/-- The keys of the run have different names. -/
theorem zoneRun_nodup (zone : Name) : ((zoneRun db zone).map fun item => nameOf item.1).Nodup := by
  have sorted : (zoneRun db zone).Pairwise (Before compare) :=
    (seek_sorted _ _).sublist (takeWhile_sublist _)
  rw [List.Nodup, pairwise_map]
  apply List.Pairwise.imp_of_mem _ sorted
  intro first second isFirst isSecond before same
  obtain ⟨name, _, _, isKey, _⟩ := entryKeys _ _ (stored_of_mem_zoneRun isFirst)
  obtain ⟨other, _, _, isOther, _⟩ := entryKeys _ _ (stored_of_mem_zoneRun isSecond)
  rw [isKey, isOther, nameOf_ofName, nameOf_ofName] at same
  rw [Before, isKey, isOther, same, Std.ReflOrd.compare_self] at before
  cases before

omit answers shows isStored in
/-- A key of the zone up to one of the run comes before that in the run. -/
theorem mem_take_zoneRun {first : Key × Value}
    (isItem : (zoneRun db (toLower target))[count]? = some item)
    (stored : (db.families .entry)[first.1]? = some first.2)
    (inZone : isInZone first.1 (toLower target) = true) (upTo : (compare first.1 item.1).isLE) :
    first ∈ (zoneRun db (toLower target)).take (count + 1) := by
  obtain ⟨name, _, _, isKey, _⟩ := entryKeys _ _ stored
  have sought : first ∈ seek (db.families .entry) (ofName (toLower target)) := by
    rw [mem_seek]
    refine ⟨stored, ?_⟩
    rw [isKey] at inZone ⊢
    exact ofName_isLE_of_encloses ((isInZone_ofName _ _).mp inZone)
  have parts : seek (db.families .entry) (ofName (toLower target)) =
      (zoneRun db (toLower target)).take (count + 1) ++
        ((zoneRun db (toLower target)).drop (count + 1) ++
          (seek (db.families .entry) (ofName (toLower target))).dropWhile
            fun item => isInZone item.1 (toLower target)) := by
    rw [← append_assoc, take_append_drop, zoneRun, takeWhile_append_dropWhile]
  have sorted := seek_sorted (db.families .entry) (ofName (toLower target))
  rw [parts] at sought sorted
  rcases mem_append.mp sought with isBefore | isBehind
  · exact isBefore
  · have taken : item ∈ (zoneRun db (toLower target)).take (count + 1) := by
      rw [take_add_one, isItem]
      simp
    have less := (pairwise_append.mp sorted).2.2 item taken first isBehind
    rw [Std.OrientedCmp.gt_of_lt less] at upTo
    cases upTo

/-- From a name that does not lead to its key, the listing ends without the rest, or shows a
name once more. -/
theorem listZone_stray (positive : 0 < pageSize)
    (isItem : (zoneRun db (toLower target))[count]? = some item) (strays : ¬ Leads kind item)
    (returned : listZone env db login argument target
      { query with start := (shownEntry kind item).fqdn } = .ok page) :
    (page.value = [] ∧ page.more = false) ∨
      ∃ shown ∈ page.value, ∃ earlier ∈ (zoneRun db (toLower target)).take (count + 1),
        toLower shown.fqdn = nameOf earlier.1 := by
  have filled : ∀ left first rest, left = first :: rest → shownEntry kind first ∈
      (pageOf env kind pageSize left).value := by
    rintro left first rest rfl
    obtain ⟨size, rfl⟩ := Nat.exists_eq_succ_of_ne_zero (Nat.ne_of_gt positive)
    rw [pageOf, env.names.mem_sort]
    exact mem_cons_self
  have member : item ∈ zoneRun db (toLower target) := mem_of_getElem? isItem
  by_cases given : (shownEntry kind item).fqdn = []
  · -- The root is shown as an empty name, so the listing begins again.
    right
    rw [given, listZone_at answers entryKeys shows isStored (.inl ⟨rfl, rfl⟩), drop_zero] at returned
    cases returned
    obtain ⟨first, rest, isRun⟩ := exists_cons_of_ne_nil (ne_nil_of_mem member)
    refine ⟨_, filled _ first rest isRun, first, ?_, toLower_shownEntry entryKeys kind
      (stored_of_mem_zoneRun (by rw [isRun]; exact mem_cons_self))⟩
    rw [isRun]
    exact mem_cons_self
  · have accepted := returned
    simp only [listZone, bind_eq_ok] at accepted
    obtain ⟨_, _, _, _, _, _, _, _, _, _, ⟨origin, skipKey, forward⟩, isStart, _⟩ := accepted
    obtain ⟨valid, isOrigin, isSkip, isForward⟩ := getStart_eq_ok given isStart
    cases answers.forward.symm.trans isForward
    subst isOrigin isSkip
    have stored := stored_of_mem_zoneRun member
    have differs : (shownEntry kind item).fqdn ≠ nameOf item.1 := fun same => strays ⟨valid, same⟩
    have less := ofName_lt_of_case (toLower_shownEntry entryKeys kind stored) differs
    obtain ⟨name, _, _, isKey, _⟩ := entryKeys _ _ stored
    have isOwn : ofName (nameOf item.1) = item.1 := by rw [isKey, nameOf_ofName]
    rw [isOwn] at less
    rw [listZone_eq answers entryKeys shows _ _ true isStart, fromPrev_forward] at returned
    cases returned
    have isAbove : item ∈ above (db.families .entry)
        (ofName (shownEntry kind item).fqdn) := (mem_above _ _ _).mpr ⟨stored, less⟩
    obtain ⟨first, rest, parts⟩ := exists_cons_of_ne_nil (ne_nil_of_mem isAbove)
    by_cases inZone : isInZone first.1 (toLower target) = true
    · right
      have isFirst : first ∈ above (db.families .entry)
          (ofName (shownEntry kind item).fqdn) := by
        rw [parts]
        exact mem_cons_self
      have firstStored := ((mem_above _ _ _).mp isFirst).1
      refine ⟨_, filled _ first _ (by rw [parts, takeWhile_cons_of_pos (by exact inZone)]), first,
        ?_, toLower_shownEntry entryKeys kind firstStored⟩
      exact mem_take_zoneRun entryKeys isItem firstStored inZone
        (isLE_of_mem_cons parts isAbove)
    · left
      rw [parts, takeWhile_cons_of_neg (by exact inZone)]
      refine ⟨?_, rfl⟩
      have none := env.names.perm []
      rw [perm_nil] at none
      rw [pageOf, take_nil, map_nil]
      exact none

omit answers entryKeys shows isStored in
/-- The name a full page ends with, as long as there is more. -/
theorem exists_boundary (env : ListEnv) (kind : KindOfListing) {run : List (Key × Value)}
    (positive : 0 < pageSize) (goesOn : pageSize < (run.drop count).length) :
    ∃ item, run[count + pageSize - 1]? = some item ∧
      (pageOf env kind pageSize (run.drop count)).klast = (shownEntry kind item).fqdn := by
  rw [length_drop] at goesOn
  obtain ⟨item, isItem⟩ : ∃ item, run[count + pageSize - 1]? = some item :=
    ⟨_, getElem?_eq_getElem (by omega)⟩
  refine ⟨item, isItem, ?_⟩
  rw [pageOf, map_take]
  apply getKeys_take positive
  rw [getElem?_map, getElem?_drop, ← Nat.add_sub_assoc positive, isItem, Option.map_some]

/-- The names that pages show, in lower case. -/
def shownNames (pages : List Page) : List Name :=
  pages.flatMap fun page => page.value.map fun shown => toLower shown.fqdn

/-- The names at the ends of pages that are followed by others lead to their keys. -/
def Continued (run : List (Key × Value)) (kind : KindOfListing) (pageSize : Nat) : Prop :=
  ∀ index item, run[index]? = some item → index + 1 < run.length → pageSize ∣ index + 1 →
    Leads kind item

omit answers shows isStored in
theorem shown_pageOf {left : List (Key × Value)}
    (stored : ∀ item ∈ left, (db.families .entry)[item.1]? = some item.2) :
    ((pageOf env kind pageSize left).value.map fun shown => toLower shown.fqdn).Perm
      ((left.take pageSize).map fun item => nameOf item.1) := by
  have sorted := (env.names.perm ((left.take pageSize).map (shownEntry kind))).map
    fun shown => toLower shown.fqdn
  rw [map_map] at sorted
  refine sorted.trans (List.Perm.of_eq (map_congr_left fun item member => ?_))
  exact toLower_shownEntry entryKeys kind (stored item (mem_of_mem_take member))

/-- If the names lead on, the pages show the run. -/
theorem fetched_of_continued (positive : 0 < pageSize)
    (continued : Continued (zoneRun db (toLower target)) kind pageSize) :
    ∃ pages, Paging.Fetched (fun start => listZone env db login argument target { query with start })
        Page.more Page.klast [] pages ∧
      (shownNames pages).Perm ((zoneRun db (toLower target)).map fun item => nameOf item.1) := by
  have advances : ∀ (start : Name) (left : List Listed),
      (∃ count, pageSize ∣ count ∧ StandsAt (zoneRun db (toLower target)) kind count start ∧
        left = ((zoneRun db (toLower target)).drop count).map (shownEntry kind)) →
      ∃ page, Paging.Advances
        (fun start => listZone env db login argument target { query with start }) Page.more Page.klast
        Page.value pageSize (fun start left => ∃ count, pageSize ∣ count ∧
          StandsAt (zoneRun db (toLower target)) kind count start ∧
          left = ((zoneRun db (toLower target)).drop count).map (shownEntry kind)) start left page := by
    rintro start left ⟨count, multiple, stands, rfl⟩
    refine ⟨_, listZone_at answers entryKeys shows isStored stands, ?_, ?_, ?_⟩
    · rw [← map_take]
      exact env.names.perm _
    · simp [pageOf]
    · intro goesOn
      rw [length_map] at goesOn
      obtain ⟨boundary, isBoundary, isLast⟩ := exists_boundary env kind positive goesOn
      rw [length_drop] at goesOn
      have multiple' := Nat.dvd_add multiple (Nat.dvd_refl pageSize)
      refine ⟨count + pageSize, multiple', .inr ⟨boundary, by omega, isBoundary, ?_, isLast⟩, ?_⟩
      · apply continued _ boundary isBoundary (by omega)
        rwa [Nat.sub_add_cancel (by omega)]
      · rw [← map_drop, drop_drop]
  obtain ⟨pages, fetched, complete⟩ := Paging.fetched_complete positive advances
    ⟨0, Nat.dvd_zero _, .inl ⟨rfl, rfl⟩, rfl⟩
  refine ⟨pages, fetched, ?_⟩
  have names := complete.all.map fun shown => toLower shown.fqdn
  rw [map_flatMap, drop_zero, map_map] at names
  refine names.trans (List.Perm.of_eq (map_congr_left fun item member => ?_))
  exact toLower_shownEntry entryKeys kind (stored_of_mem_zoneRun member)

/-- If the pages are complete, the names lead on. -/
theorem continued_of_fetched (positive : 0 < pageSize) {pages : List Page}
    (fetched : Paging.Fetched (fun start => listZone env db login argument target { query with start })
      Page.more Page.klast start pages) (multiple : pageSize ∣ count)
    (stands : StandsAt (zoneRun db (toLower target)) kind count start)
    (once : (((zoneRun db (toLower target)).take count).map (fun item => nameOf item.1) ++
      shownNames pages).Nodup) (all : ∀ item ∈ zoneRun db (toLower target), nameOf item.1 ∈
      ((zoneRun db (toLower target)).take count).map (fun item => nameOf item.1) ++ shownNames pages)
    {index : Nat} (isItem : (zoneRun db (toLower target))[index]? = some item)
    (isBehind : count ≤ index) (more : index + 1 < (zoneRun db (toLower target)).length)
    (atEnd : pageSize ∣ index + 1) : Leads kind item := by
  have far : ∀ low high, low < high → pageSize ∣ low → pageSize ∣ high → low + pageSize ≤ high := by
    intro low high less ofLow ofHigh
    have := Nat.le_of_dvd (by omega) (Nat.dvd_sub ofHigh ofLow)
    omega
  induction fetched generalizing count with
  | @last start page fetched ends =>
    rw [listZone_at answers entryKeys shows isStored stands] at fetched
    cases fetched
    have bound := far count (index + 1) (by omega) multiple atEnd
    rw [pageOf, decide_eq_false_iff_not, length_drop] at ends
    omega
  | @further start page rest fetched goesOn later ih =>
    rw [listZone_at answers entryKeys shows isStored stands] at fetched
    cases fetched
    have longer := of_decide_eq_true goesOn
    obtain ⟨boundary, isBoundary, isLast⟩ := exists_boundary env kind positive longer
    have bound := far count (index + 1) (by omega) multiple atEnd
    -- Together with the page, the names shown before are those up to its end.
    have together : (((zoneRun db (toLower target)).take count).map (fun item => nameOf item.1) ++
        shownNames (pageOf env kind pageSize ((zoneRun db (toLower target)).drop count) :: rest)).Perm
        (((zoneRun db (toLower target)).take (count + pageSize)).map (fun item => nameOf item.1) ++
          shownNames rest) := by
      rw [shownNames, flatMap_cons, ← append_assoc, take_add, map_append]
      apply List.Perm.append_right
      apply List.Perm.append_left
      exact shown_pageOf entryKeys fun item member =>
        stored_of_mem_zoneRun (mem_of_mem_drop member)
    have onceMore := together.nodup_iff.mp once
    by_cases leads : Leads kind boundary
    · by_cases isNext : index + 1 = count + pageSize
      · rw [show count + pageSize - 1 = index by omega, isItem] at isBoundary
        cases isBoundary
        exact leads
      · exact ih (Nat.dvd_add multiple (Nat.dvd_refl _))
          (.inr ⟨boundary, by omega, isBoundary, leads, isLast⟩) onceMore
          (fun other member => together.mem_iff.mp (all other member)) (by omega)
    · exfalso
      obtain ⟨page, tail, rfl, fetched, alone⟩ := later.first
      rw [isLast] at fetched
      rcases listZone_stray answers entryKeys shows isStored positive
        isBoundary leads fetched with ⟨none, ends⟩ | ⟨shown, isShown, earlier, isEarlier, same⟩
      · -- The name behind the page is not shown any more.
        obtain ⟨next, isNext⟩ : ∃ next, ((zoneRun db (toLower target)).drop (count + pageSize))[0]? =
            some next := ⟨_, getElem?_eq_getElem (by rw [length_drop]; omega)⟩
        have inDrop := mem_of_getElem? isNext
        have shown := together.mem_iff.mp (all next (mem_of_mem_drop inDrop))
        rw [alone ends, shownNames, flatMap_cons, none, map_nil, flatMap_nil,
          List.append_nil, List.append_nil] at shown
        have nodup := zoneRun_nodup entryKeys (toLower target)
        rw [← take_append_drop (count + pageSize) (zoneRun db (toLower target)),
          map_append] at nodup
        exact (nodup_append.mp nodup).2.2 _ shown _ (mem_map_of_mem inDrop) rfl
      · rw [show count + pageSize - 1 + 1 = count + pageSize by omega] at isEarlier
        refine (nodup_append.mp onceMore).2.2 _ (mem_map_of_mem isEarlier) _ ?_ rfl
        rw [← same, shownNames, flatMap_cons]
        exact mem_append_left _ (mem_map_of_mem isShown)

end pages

section exact

/-- The zone can be listed page by page: no other name is stored between the zone and a name in
it, the name at the end of each page but the last leads to its key, and if records are to be
shown, each record of the zone can be written. -/
structure Pageable (db : Db Value) (zone : Name) (kind : KindOfListing) (pageSize : Nat) : Prop where
  positive : 0 < pageSize
  together : ∀ name other, (entryOf db name).isSome → (entryOf db other).isSome → Encloses zone name →
    compare (ofName zone) (ofName other) = .lt →
    compare (ofName other) (ofName name) = .lt → Encloses zone other
  continued : Continued (zoneItems db zone) kind pageSize
  shown : kind = .verbose → ∀ name entry, entryOf db name = some entry → Encloses zone name →
    ∀ rr ∈ entry.rrs, Presentable rr

/-- Fetching the zone from its beginning, and then from the last name of each page as long as
there is more, comes to an end and shows every name in the zone exactly once and nothing else. -/
def ListsZone (env : ListEnv) (db : Db Value) (login : Login) (argument : Option Bytes)
    (target : Name) (query : ListQuery) : Prop :=
  ∃ pages, Paging.Fetched (fun start => listZone env db login argument target { query with start })
      Page.more Page.klast [] pages ∧
    (shownNames pages).Nodup ∧
    ∀ name, name ∈ shownNames pages ↔ (entryOf db name).isSome ∧ Encloses (toLower target) name

variable {db : Db Value} (entryKeys : EntryKeys db)
include entryKeys

theorem isSome_entryOf_iff (name : Name) :
    (entryOf db name).isSome ↔ ∃ value, (db.families .entry)[ofName name]? = some value := by
  rw [entryOf, Db.entryContent, entryAt]
  constructor
  · intro found
    cases stored : (db.families .entry)[ofName name]? with
    | none =>
      rw [stored] at found
      cases found
    | some value => exact ⟨value, rfl⟩
  · rintro ⟨value, stored⟩
    obtain ⟨_, entry, _, _, rfl, _⟩ := entryKeys _ _ stored
    rw [stored]
    rfl

/-- The items of a zone are the stored names in it. -/
theorem mem_zoneItems_iff (zone name : Name) :
    name ∈ (zoneItems db zone).map (fun item => nameOf item.1) ↔
      (entryOf db name).isSome ∧ Encloses zone name := by
  rw [mem_map, isSome_entryOf_iff entryKeys]
  constructor
  · rintro ⟨⟨key, value⟩, member, rfl⟩
    rw [zoneItems, mem_filter, Std.ExtTreeMap.mem_toList_iff_getElem?_eq_some] at member
    obtain ⟨own, _, _, rfl, _⟩ := entryKeys _ _ member.1
    rw [nameOf_ofName]
    exact ⟨⟨value, member.1⟩, (isInZone_ofName _ _).mp member.2⟩
  · rintro ⟨⟨value, stored⟩, encloses⟩
    refine ⟨(ofName name, value), ?_, nameOf_ofName name⟩
    rw [zoneItems, mem_filter, Std.ExtTreeMap.mem_toList_iff_getElem?_eq_some]
    exact ⟨stored, (isInZone_ofName _ _).mpr encloses⟩

/-- What is to be shown of the items, said of the names. -/
theorem shows_iff (zone : Name) (kind : KindOfListing) :
    (∀ item ∈ zoneItems db zone, Shows kind item.2) ↔
      (kind = .verbose → ∀ name entry, entryOf db name = some entry → Encloses zone name →
        ∀ rr ∈ entry.rrs, Presentable rr) := by
  constructor
  · intro shows verbose name entry found encloses
    obtain ⟨item, member, isName⟩ := mem_map.mp ((mem_zoneItems_iff entryKeys zone name).mpr
      ⟨by rw [found]; rfl, encloses⟩)
    have stored := (mem_filter.mp member).1
    rw [Std.ExtTreeMap.mem_toList_iff_getElem?_eq_some] at stored
    obtain ⟨own, _, _, isKey, _⟩ := entryKeys _ _ stored
    rw [isKey, nameOf_ofName] at isName
    rw [isKey, isName] at stored
    rw [entryOf, Db.entryContent, entryAt, stored] at found
    refine shows item member verbose entry ?_
    cases isValue : item.2 with
    | entry other =>
      rw [isValue] at found
      cases found
      rfl
    | _ =>
      rw [isValue] at found
      cases found
  · intro shown item member verbose entry isEntry
    have named := (mem_zoneItems_iff entryKeys zone (nameOf item.1)).mp (mem_map_of_mem member)
    have stored := (mem_filter.mp member).1
    rw [Std.ExtTreeMap.mem_toList_iff_getElem?_eq_some] at stored
    obtain ⟨own, _, _, isKey, _⟩ := entryKeys _ _ stored
    refine shown verbose (nameOf item.1) entry ?_ named.2
    rw [isKey, nameOf_ofName, entryOf, Db.entryContent, entryAt, ← isKey, stored, isEntry]
    rfl

theorem zoneItems_eq (zone : Name) :
    zoneItems db zone = (seek (db.families .entry) (ofName zone)).filter fun item =>
      isInZone item.1 zone := by
  rw [zoneItems, seek, filter_filter]
  apply filter_congr
  rintro ⟨key, value⟩ member
  rw [Std.ExtTreeMap.mem_toList_iff_getElem?_eq_some] at member
  obtain ⟨own, _, _, rfl, _⟩ := entryKeys _ _ member
  by_cases inZone : isInZone (ofName own) zone = true
  · rw [inZone, ofName_isLE_of_encloses ((isInZone_ofName _ _).mp inZone)]
    rfl
  · rw [Bool.not_eq_true] at inZone
    rw [inZone, Bool.false_and]

/-- The walk meets all names of the zone if nothing lies between. -/
theorem zoneRun_eq {zone : Name}
    (together : ∀ name other, (entryOf db name).isSome → (entryOf db other).isSome → Encloses zone name →
      compare (ofName zone) (ofName other) = .lt →
      compare (ofName other) (ofName name) = .lt → Encloses zone other) :
    zoneRun db zone = zoneItems db zone := by
  rw [zoneItems_eq entryKeys, zoneRun]
  apply takeWhile_eq_filter
  apply List.Pairwise.imp_of_mem _ (seek_sorted _ _)
  rintro ⟨earlier, value⟩ ⟨later, found⟩ isEarlier isLater before inZone
  obtain ⟨stored, atLeast⟩ := (mem_seek _ _ _).mp isEarlier
  have isStored := ((mem_seek _ _ _).mp isLater).1
  obtain ⟨other, _, _, rfl, _⟩ := entryKeys _ _ stored
  obtain ⟨name, _, _, rfl, _⟩ := entryKeys _ _ isStored
  rw [isInZone_ofName] at inZone ⊢
  cases order : compare (ofName zone) (ofName other) with
  | lt =>
    exact together name other ((isSome_entryOf_iff entryKeys name).mpr ⟨found, isStored⟩)
      ((isSome_entryOf_iff entryKeys other).mpr ⟨value, stored⟩) inZone order before
  | eq =>
    rw [RealKey.ofName_injective (Std.LawfulEqCmp.eq_of_compare order)]
    exact Encloses.refl other
  | gt =>
    rw [order] at atLeast
    cases atLeast

/-- If the walk meets all names of the zone, nothing lies between. -/
theorem together_of_zoneRun (zone : Name)
    (all : ∀ name, (entryOf db name).isSome → Encloses zone name →
      name ∈ (zoneRun db zone).map fun item => nameOf item.1) (name other : Name)
    (isName : (entryOf db name).isSome) (isOther : (entryOf db other).isSome)
    (encloses : Encloses zone name) (behind : compare (ofName zone) (ofName other) = .lt)
    (before : compare (ofName other) (ofName name) = .lt) : Encloses zone other := by
  obtain ⟨value, stored⟩ := (isSome_entryOf_iff entryKeys other).mp isOther
  have sought : (ofName other, value) ∈
      seek (db.families .entry) (ofName zone) :=
    (mem_seek _ _ _).mpr ⟨stored, RealKey.isLE_of_lt behind⟩
  have sorted := seek_sorted (db.families .entry) (ofName zone)
  rw [← takeWhile_append_dropWhile (p := fun item : Key × Value => isInZone item.1 zone)
    (l := seek (db.families .entry) (ofName zone))] at sought sorted
  rcases mem_append.mp sought with inRun | later
  · have within := encloses_of_mem_zoneRun inRun
    rwa [nameOf_ofName] at within
  · obtain ⟨⟨key, found⟩, isItem, isName⟩ := mem_map.mp (all name isName encloses)
    obtain ⟨own, _, _, rfl, _⟩ := entryKeys _ _ (stored_of_mem_zoneRun isItem)
    rw [nameOf_ofName] at isName
    subst isName
    have less := (pairwise_append.mp sorted).2.2 _ isItem _ later
    rw [Before, Std.OrientedCmp.gt_of_lt before] at less
    cases less

variable {env : ListEnv} {login : Login} {argument : Option Bytes} {start target : Name}
    {query : ListQuery} {kind : KindOfListing} {pageSize : Nat} {pages : List Page}

/-- Pages without names do not come to an end. -/
theorem positive_of_fetched
    (answers : AnswersZone env db login argument target query kind pageSize)
    (shows : ∀ item ∈ zoneItems db (toLower target), Shows kind item.2) {apex : Value}
    (isStored : (db.families .entry)[ofName (toLower target)]? = some apex)
    (fetched : Paging.Fetched
      (fun start => listZone env db login argument target { query with start }) Page.more Page.klast start
      pages) (isFirst : start = []) : 0 < pageSize := by
  rw [Nat.pos_iff_ne_zero]
  rintro rfl
  have filled : 0 < (zoneRun db (toLower target)).length := by
    rw [zoneRun, seek_present _ isStored, takeWhile_cons_of_pos]
    · exact Nat.succ_pos _
    · exact (isInZone_ofName _ _).mpr (Encloses.refl _)
  induction fetched with
  | @last start page fetched ends =>
    rw [isFirst, listZone_at answers entryKeys shows isStored (.inl ⟨rfl, rfl⟩)] at fetched
    cases fetched
    exact absurd filled (of_decide_eq_false ends)
  | @further start page rest fetched goesOn later ih =>
    rw [isFirst, listZone_at answers entryKeys shows isStored (.inl ⟨rfl, rfl⟩)] at fetched
    cases fetched
    exact ih rfl

/-- If every name in the zone is on some page, all that is to be shown can be written. -/
theorem shows_of_fetched
    (answers : AnswersZone env db login argument target query kind pageSize)
    (fetched : Paging.Fetched
      (fun start => listZone env db login argument target { query with start }) Page.more Page.klast start
      pages)
    (all : ∀ item ∈ zoneItems db (toLower target), nameOf item.1 ∈ shownNames pages) :
    ∀ item ∈ zoneItems db (toLower target), Shows kind item.2 := by
  intro item member
  obtain ⟨page, isPage, inPage⟩ := mem_flatMap.mp (all item member)
  obtain ⟨shown, isShown, sameName⟩ := mem_map.mp inPage
  obtain ⟨cursor, returned⟩ := fetched.mem isPage
  obtain ⟨other, stored, shows, isOther⟩ := listZone_shows answers entryKeys returned isShown
  have isStored := (mem_filter.mp member).1
  rw [Std.ExtTreeMap.mem_toList_iff_getElem?_eq_some] at isStored
  obtain ⟨first, _, _, isFirst, _⟩ := entryKeys _ _ stored
  obtain ⟨second, _, _, isSecond, _⟩ := entryKeys _ _ isStored
  rw [isFirst, nameOf_ofName, sameName, isSecond, nameOf_ofName] at isOther
  rw [isSecond, isOther, ← isFirst, stored] at isStored
  rw [← Option.some.inj isStored]
  exact shows

end exact

/-- A zone is listed completely page by page exactly if no other name lies between its names,
the names at the ends of the pages lead on, and what is to be shown can be written. -/
theorem listZone_pages_exact_iff (env : ListEnv) (db : Db Value) (login : Login)
    (argument : Option Bytes) (target : Name) (query : ListQuery) (kind : KindOfListing)
    (pageSize : Nat) (answers : AnswersZone env db login argument target query kind pageSize)
    (entryKeys : EntryKeys db) (apex : Entry) (isZone : IsZone db (toLower target) apex) :
    ListsZone env db login argument target query ↔ Pageable db (toLower target) kind pageSize := by
  obtain ⟨value, isStored⟩ := (isSome_entryOf_iff entryKeys (toLower target)).mp (by
    rw [isZone.1]
    rfl)
  constructor
  · rintro ⟨pages, fetched, once, exactly⟩
    have shows := shows_of_fetched entryKeys answers fetched fun item member =>
      (exactly _).mpr ((mem_zoneItems_iff entryKeys _ _).mp (mem_map_of_mem member))
    have positive := positive_of_fetched entryKeys answers shows isStored fetched rfl
    have continued : Continued (zoneRun db (toLower target)) kind pageSize := by
      intro index item isItem more atEnd
      refine continued_of_fetched answers entryKeys shows isStored positive fetched (Nat.dvd_zero _)
        (.inl ⟨rfl, rfl⟩) once ?_ isItem (Nat.zero_le _) more atEnd
      intro other member
      obtain ⟨own, _, _, isKey, _⟩ := entryKeys _ _ (stored_of_mem_zoneRun member)
      refine (exactly _).mpr ⟨?_, encloses_of_mem_zoneRun member⟩
      rw [isKey, nameOf_ofName, isSome_entryOf_iff entryKeys, ← isKey]
      exact ⟨_, stored_of_mem_zoneRun member⟩
    obtain ⟨others, isOthers, complete⟩ :=
      fetched_of_continued answers entryKeys shows isStored positive continued
    cases fetched.unique isOthers
    have together := together_of_zoneRun entryKeys (toLower target) fun name isName encloses =>
      complete.mem_iff.mp ((exactly name).mpr ⟨isName, encloses⟩)
    exact ⟨positive, together, by rwa [← zoneRun_eq entryKeys together],
      (shows_iff entryKeys _ _).mp shows⟩
  · rintro ⟨positive, together, continued, shown⟩
    have sameRun := zoneRun_eq entryKeys together
    obtain ⟨pages, fetched, complete⟩ := fetched_of_continued answers entryKeys
      ((shows_iff entryKeys _ _).mpr shown) isStored positive (by rwa [sameRun])
    refine ⟨pages, fetched, complete.nodup_iff.mpr (zoneRun_nodup entryKeys _), fun name => ?_⟩
    rw [complete.mem_iff, sameRun, mem_zoneItems_iff entryKeys]

/-- A store with the zone `z` of a tenant, and the names `a.z` and `b.z` in it. -/
def threeNames : Db Value where
  families := fun
    | .entry => (((∅ : ColumnFamily Value).insert (ofName [0x7A])
          (.entry ⟨some 0x31, 1, [soaOfZ 1]⟩)).insert (ofName [0x61, 0x2E, 0x7A])
          (.entry ⟨some 0x31, 1, [StorageBuilder.newRr [0x61, 0x2E, 0x7A]
            false RrType.a 300 [1, 1, 1, 1]]⟩)).insert
        (ofName [0x62, 0x2E, 0x7A])
        (.entry ⟨some 0x31, 1, [StorageBuilder.newRr [0x62, 0x2E, 0x7A]
          false RrType.mx 300 [0, 1, 1, 0x7A, 0]]⟩)
    | other => twoTenants.db.families other
  trxlog := ∅

theorem stored_threeNames {key : Key} {value : Value}
    (stored : (threeNames.families .entry)[key]? = some value) :
    (key = ofName [0x7A] ∧ value = .entry ⟨some 0x31, 1, [soaOfZ 1]⟩) ∨
      (key = ofName [0x61, 0x2E, 0x7A] ∧ value = .entry ⟨some 0x31, 1,
        [StorageBuilder.newRr [0x61, 0x2E, 0x7A] false RrType.a 300 [1, 1, 1, 1]]⟩) ∨
      (key = ofName [0x62, 0x2E, 0x7A] ∧ value = .entry ⟨some 0x31, 1,
        [StorageBuilder.newRr [0x62, 0x2E, 0x7A] false RrType.mx 300 [0, 1, 1, 0x7A, 0]]⟩) := by
  simp only [threeNames, Std.ExtTreeMap.getElem?_insert, Std.ExtTreeMap.getElem?_empty,
    Std.LawfulEqCmp.compare_eq_iff_eq] at stored
  grind

/-- The zone is listed with its records, on two pages. -/
theorem threeNames_listed :
    ListsZone { sampleList with restDefaultPageSize := 2 } threeNames (loginOf 0x31) none [0x7A]
      { firstPage with kind := some "verbose" } := by
  have entryKeys : EntryKeys threeNames := by
    intro key value stored
    rcases stored_threeNames stored with ⟨isKey, isValue⟩ | ⟨isKey, isValue⟩ | ⟨isKey, isValue⟩
    · exact ⟨[0x7A], _, by decide, isKey, isValue, by decide⟩
    · exact ⟨[0x61, 0x2E, 0x7A], _, by decide, isKey, isValue, by decide⟩
    · exact ⟨[0x62, 0x2E, 0x7A], _, by decide, isKey, isValue, by decide⟩
  have names (name : Name) (isName : (entryOf threeNames name).isSome) :
      name = [0x7A] ∨ name = [0x61, 0x2E, 0x7A] ∨ name = [0x62, 0x2E, 0x7A] := by
    obtain ⟨value, stored⟩ := (isSome_entryOf_iff entryKeys name).mp isName
    rcases stored_threeNames stored with ⟨isKey, _⟩ | ⟨isKey, _⟩ | ⟨isKey, _⟩
    · exact .inl (RealKey.ofName_injective isKey)
    · exact .inr (.inl (RealKey.ofName_injective isKey))
    · exact .inr (.inr (RealKey.ofName_injective isKey))
  refine (listZone_pages_exact_iff _ threeNames (loginOf 0x31) none [0x7A] _ .verbose 2
    ⟨⟨_, _, _, _, rfl, rfl⟩, rfl, rfl, rfl⟩ entryKeys ⟨some 0x31, 1, [soaOfZ 1]⟩
    ⟨by decide +kernel, by decide +kernel⟩).mpr ⟨by decide, ?_, ?_, ?_⟩
  · intro name other _ isOther _ _ _
    rcases names other isOther with rfl | rfl | rfl
    · exact Encloses.refl _
    · exact .inr ⟨[0x61], rfl⟩
    · exact .inr ⟨[0x62], rfl⟩
  · intro index item isItem more atEnd
    have three : (zoneItems threeNames (toLower [0x7A])).length = 3 := by decide +kernel
    have second : index = 1 := by omega
    subst second
    have isSecond : item = (ofName [0x61, 0x2E, 0x7A], .entry ⟨some 0x31, 1,
        [StorageBuilder.newRr [0x61, 0x2E, 0x7A] false RrType.a 300 [1, 1, 1, 1]]⟩) := by
      have found : (zoneItems threeNames (toLower [0x7A]))[1]? =
          some (ofName [0x61, 0x2E, 0x7A], .entry ⟨some 0x31, 1,
            [StorageBuilder.newRr [0x61, 0x2E, 0x7A] false RrType.a 300 [1, 1, 1, 1]]⟩) := by decide +kernel
      exact Option.some.inj (isItem.symm.trans found)
    rw [isSecond]
    exact ⟨by decide +kernel, by decide +kernel⟩
  · intro _ name entry found _ rr member
    have present : (entryOf threeNames name).isSome := by
      rw [found]
      rfl
    have all : ∀ rr ∈ ((entryOf threeNames name).map Entry.rrs).getD [],
        (toJson rr.type rr.rdata).isOk = true := by
      rcases names name present with rfl | rfl | rfl <;> decide +kernel
    rw [found] at all
    exact (isOk_iff _).mp (all rr member)

/-- The zones `z` and `b-z` are stored, and in the first the name `a.z`. The key of `b-z` lies
between the others, and the listing of `z` ends before it comes to `a.z`. -/
theorem name_behind_other_zone_missing :
    ∃ first second final page, serve sampleSite twoTenants (postZone 0x31 [0x7A]) = .ok first ∧
      serve sampleSite first (postName 0x31 [0x61, 0x2E, 0x7A]) = .ok second ∧
      serve sampleSite second (postZone 0x31 [0x62, 0x2D, 0x7A]) = .ok final ∧
      listZone sampleList final.db (loginOf 0x31) none [0x7A] firstPage = .ok page ∧
      page.value = [.name [0x7A]] ∧ page.more = false ∧
      (entryOf final.db [0x61, 0x2E, 0x7A]).isSome ∧
      ¬ ListsZone sampleList final.db (loginOf 0x31) none [0x7A] firstPage := by
  have ran : (serve sampleSite twoTenants (postZone 0x31 [0x7A]) >>= fun first =>
      serve sampleSite first (postName 0x31 [0x61, 0x2E, 0x7A]) >>= fun second =>
      serve sampleSite second (postZone 0x31 [0x62, 0x2D, 0x7A]) >>= fun final =>
      listZone sampleList final.db (loginOf 0x31) none [0x7A] firstPage >>= fun page =>
        .ok (decide (page.value = [.name [0x7A]] ∧ page.more = false ∧
          (entryOf final.db [0x61, 0x2E, 0x7A]).isSome))) = .ok true := by
    decide +kernel
  simp only [bind_eq_ok] at ran
  obtain ⟨first, created, second, recorded, final, createdOther, page, listed, checked⟩ := ran
  obtain ⟨shown, ends, present⟩ := of_decide_eq_true (ok.inj checked)
  refine ⟨first, second, final, page, created, recorded, createdOther, listed, shown, ends, present, ?_⟩
  rintro ⟨pages, fetched, _, exactly⟩
  have alone : pages = [page] := fetched.unique (.last listed ends)
  have inPages := (exactly [0x61, 0x2E, 0x7A]).mpr ⟨present, .inr ⟨[0x61], rfl⟩⟩
  rw [alone, shownNames, flatMap_singleton, shown] at inPages
  exact absurd inPages (by decide)

end Nsblast.RestApi
