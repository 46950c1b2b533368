import Nsblast.Engine.PlainAnswers
import Nsblast.Storage.EntryRoundTrip
import Nsblast.Wire.KnownNames

/-!
# A reply with a name that cannot be pointed to

The largest size of a reply can be configured up to 65535. The entry here has a record of
16400 bytes of data under the name `a`, and two short ones under the name `A`, as two
requests that spell the name differently leave it. The name of the first short record is
written behind the place 16384, and the second points to it. The pointer is read as the
place 47, which lies in the data of the large record: a zero, and so the name of the root.
The reply has no flag TC.
-/

namespace Nsblast.Wire.DnsEngine

open List hiding iterate
open Buffer Labels WriteLabels MessageBuilder Handler Run Nsblast.StorageBuilder

/-- A server with the largest limit for replies. -/
def largeEngine : Engine := { sampleEngine with udpMaxBufferSizeWithOpt := 65535 }

/-- A query for the keys of the name `a`, with an OPT record that offers 65535 bytes. -/
def largeQuery : Request where
  span := [0x12, 0x34, 1, 0, 0, 1, 0, 0, 0, 0, 0, 1, 1, 0x61, 0, 0, 61, 0, 1,
    0, 0, 41, 0xFF, 0xFF, 0, 0, 0, 0, 0, 0]

def largeMessage : Message :=
  ⟨[some ⟨true, [⟨61, 12⟩], 7⟩, none, none, some ⟨false, [⟨41, 19⟩], 11⟩]⟩

def largeQuestion : RrData := ⟨[[0x61], []], 61, 1, 0, []⟩

def keyData (label : UInt8) (rdata : List UInt8) : RrData := ⟨[[label], []], 61, 1, 60, rdata⟩

def largeRdata : List UInt8 := replicate 16400 0

/-- The names and the data of the keys. -/
def largeKeys : List (Name × List UInt8) := [([0x61], largeRdata), ([0x41], [1]), ([0x41], [2])]

/-- The builder of the entry, with all keys. -/
def keysBuilder : Run Wire.StorageBuilder :=
  largeKeys.foldlM (fun wire key => wire.createRr key.1 61 60 key.2 false) {}

/-- A database with one entry. -/
def oneEntry (bytes : Buffer) : Families Buffer := fun category =>
  if category = .entry then (∅ : ColumnFamily Buffer).insert (RealKey.ofName [0x61]) bytes else ∅

def largeStored : List RrData := [keyData 0x61 largeRdata, keyData 0x41 [1], keyData 0x41 [2]]

/-- What the answers of the reply are read as. -/
def largeMisread : List RrData :=
  [keyData 0x61 largeRdata, keyData 0x41 [1], ⟨[[]], 61, 1, 60, [2]⟩]

theorem length_largeRdata : largeRdata.length = 16400 := length_replicate

section entry

/-- The records of the builder. -/
def largeRrs : List StoredRr := largeKeys.map fun key => newRr key.1 false 61 60 key.2

/-- The keys are created, each with its own name. -/
theorem largeKeys_created :
    largeKeys.foldlM (fun builder key => Nsblast.StorageBuilder.createRr builder key.1 61 60 key.2 false)
      {} = .ok { rrs := largeRrs } := by
  have notSoa : ¬ (61 : UInt16) = RrType.soa := by decide
  have small : withoutDot [0x61] = [0x61] := by decide
  have large : withoutDot [0x41] = [0x41] := by decide
  have written : writeName [0x61] = .ok (labelsLen [0x61]) ∧
    writeName [0x41] = .ok (labelsLen [0x41]) := by decide
  simp [largeKeys, largeRrs, foldlM_cons, Nsblast.StorageBuilder.createRr, sharesName, finishRr, adding,
    Nsblast.StorageBuilder.defaultLabels, small, large, written, newRr, Nsblast.StorageBuilder.size,
    StoredRr.size, StoredRr.labelLen, length_largeRdata, firstName, bufferHeaderLen, throwIf, assert,
    notSoa]

/-- The entry is found and read. -/
theorem large_stored : ∃ wire entry, keysBuilder = .ok wire ∧
    Stored (oneEntry (finished wire wire.index)) [0x61] entry largeStored := by
  obtain ⟨owned, placed, isOwned, isPlaced, encodes⟩ := begun_encodes none (Nat.zero_le 255)
  cases isOwned
  cases isPlaced
  have same := Rel.foldlM largeKeys encodes fun _ _ key encodes =>
    encodes.createRr key.1 61 60 key.2 false
  rw [largeKeys_created] at same
  obtain ⟨wire, filled, encoded⟩ := same.returned
  have shown := encoded.shows wire.index _ (by decide) (by decide) encoded.placed (.refl _)
  refine ⟨wire, _, filled, ?_, shown.filled, shown.records.trans ?_, _, shown.flags, ?_⟩
  · rw [lookup]
    simp [oneEntry, shown.constructed]
  · simp only [largeRrs, largeKeys, map_cons, map_nil, newRr_data]
    rfl
  · simp [flagsOf, largeRrs, largeKeys, newRr, RrType.cname]

end entry

section reply

variable {builder next : MessageBuilder} {front : List UInt8} {counts : Segment → Nat}

/-- The same bytes behind another name. -/
theorem fieldsData_renamed {labels : List Text} {fields : List UInt8} {data : RrData}
    (other : List Text) (reads : fieldsData labels false fields = .ok data) :
    fieldsData other false fields = .ok { data with labels := other } := by
  simp only [fieldsData, Bool.false_eq_true, if_false, bind_eq_ok] at reads ⊢
  obtain ⟨type, isType, clas, isClas, ttl, isTtl, isData⟩ := reads
  cases isData
  exact ⟨type, isType, clas, isClas, ttl, isTtl, rfl⟩

/-- The second key of the name in the other case. The pointer to the name is cut to fourteen
bits, and a zero is read where it points to. -/
theorem third_key {record : OwnRr} {rdata : List UInt8} {known second : KnownName}
    (valid : record.Valid false (keyData 0x41 rdata)) (sound : Sound builder front counts)
    (limit : builder.maxBufferSize = 65535) (room : builder.buffer.length + rdata.length < 65000)
    (isTable : builder.labels = [known, second]) (view : known.viewSize ≤ 16384)
    (isKnown : Known builder.buffer Message.headerSize known [[0x61]])
    (isSecond : Known builder.buffer Message.headerSize second [[0x41]])
    (isByte : (builder.buffer.take second.viewSize)[second.offset]? = some 1)
    (far : second.offset = 16431) (zero : PartAt builder.buffer 47 [0]) :
    ∃ next, builder.addRr record.own record.rr .answer = .ok (true, next) ∧
      Filled builder next front counts true [⟨[[]], 61, 1, 60, rdata⟩] [⟨[[]], 61, 1, 60, rdata⟩] := by
  obtain ⟨fqdn, labels, fields, content⟩ := valid.content
  obtain rfl : labels = [[0x41]] := append_cancel_right (content.labels_eq.symm.trans rfl)
  have long := sound.long
  have inside := zero.inside (by simp)
  rw [length_singleton] at inside
  obtain ⟨root, _, _, searched⟩ := search_apart isKnown view
    (by decide : ([0x41] : Text) ≠ [0x61]) [second]
  have chosen : choose fqdn builder.labels builder.buffer =
      .ok ([[0x41]] ++ [[]], ⟨some second.offset, 2⟩, true) := by
    rw [isTable]
    exact choose_of_search content.named
      (searched.trans (search_same isSecond isByte (by decide) (by simp)))
  obtain ⟨next, added, _, appends⟩ := pointed_added content (by simp) sound limit room chosen
  obtain ⟨rcode, opt, sameLimit⟩ := appends.same
  have isPointer : pointerBytes second.offset = pointerBytes 47 := by rw [far]; decide
  have two : (pointerBytes second.offset).length = 2 := rfl
  have length := appends.length
  have size := (fields_of_content content).1
  simp only [keyData] at size
  have grows := (GrownBehind.append _ _ (pointerBytes second.offset) long).trans appends.grows
  have zeroLater := zero.grown grows (by decide)
  have spelled : Spelled next.buffer Message.headerSize builder.buffer.length builder.buffer.length
      [] 2 :=
    .pointer _ _ 47 47 1 0 [] long (by omega) (isPointer ▸ appends.isName) (by omega) (by omega)
      (Nat.le_refl _) ((PartAt.cons_iff 0).mp zeroLater).1 (by decide)
      (.root _ _ (by decide) (by omega) zeroLater)
  have placed : Placed next.buffer Message.headerSize builder.buffer.length false
      ⟨[[]], 61, 1, 60, rdata⟩ (2 + fields.length) :=
    ⟨[], fields, 2, spelled, by decide, appends.isFields, content.isFields,
      fieldsData_renamed [[]] content.reads, rfl⟩
  refine ⟨next, added, ⟨⟨sound.four, appends.header, ?_, forall_mem_nil _⟩, grows, ⟨_, placed, ?_⟩,
    sameLimit, rcode, opt, by omega, fun _ => rfl⟩⟩
  · intro segment
    have bounded := sound.bounded segment
    simp only [length_singleton]
    split <;> omega
  · simp only [PlacedAll]
    omega

/-- The header and the question of the reply. -/
def largeFront : Buffer := [0x12, 0x34, 0x85, 0, 0, 1, 0, 0, 0, 0, 0, 0, 1, 0x61, 0, 0, 61, 0, 1]

/-- All three keys are added, and the last is read with another name. -/
theorem large_filled {offered : List OwnRr} (sound : Sound builder front counts)
    (limit : builder.maxBufferSize = 65535) (isBuffer : builder.buffer = largeFront)
    (isTable : builder.labels = [⟨12, 15, 2⟩])
    (valid : Forall₂ (fun record data => OwnRr.Valid record false data) offered largeStored) :
    ∃ final, addUntilFull offered builder = .ok (true, final) ∧
      Filled builder final front counts true largeMisread largeMisread := by
  obtain _ | ⟨valid1, _ | ⟨valid2, _ | ⟨valid3, _ | _⟩⟩⟩ := valid
  have large : (keyData 0x61 largeRdata).rdata.length = 16400 := length_largeRdata
  have nineteen : builder.buffer.length = 19 := by rw [isBuffer]; rfl
  obtain ⟨fqdn1, labels1, fields1, content1⟩ := valid1.content
  obtain ⟨fqdn2, labels2, fields2, content2⟩ := valid2.content
  obtain rfl : labels1 = [[0x61]] := append_cancel_right (content1.labels_eq.symm.trans rfl)
  obtain rfl : labels2 = [[0x41]] := append_cancel_right (content2.labels_eq.symm.trans rfl)
  obtain ⟨size1, isRdata⟩ := fields_of_content content1
  have isKnown : Known builder.buffer Message.headerSize ⟨12, 15, 2⟩ [[0x61]] := by
    have stands : PartAt (builder.buffer.take 15) 12 ([1, 0x61] ++ [0]) := by
      rw [isBuffer]
      exact ⟨[], rfl⟩
    exact ⟨⟨3, .label _ _ 1 [0x61] [] (by decide) (by decide) (by simp) (by decide) stands.left
      (.root _ _ (by decide) (by decide) stands.right)⟩, rfl⟩
  -- The first name is that of the question.
  obtain ⟨next1, added1, table1, appends1⟩ := pointed_added content1 (by simp) sound limit (by omega)
    (by
      rw [isTable]
      exact choose_of_search content1.named (search_same isKnown (by rw [isBuffer]; rfl)
        (by decide) (by decide)))
  have adds1 := addRr_adds sound (by omega) (by omega) valid1 (sound.lowMatch (by omega) valid1) added1
  have limit1 := adds1.limit
  have length1 : next1.buffer.length = builder.buffer.length + 2 + fields1.length := appends1.length
  have isKnown1 := isKnown.grown (by simp only; omega) adds1.grows
  -- The label of the name in the other case is written out, and the name is known from there on.
  obtain ⟨root, low, begins, searched⟩ := search_apart isKnown1 (by decide : 15 ≤ 16384)
    (by decide : ([0x41] : Text) ≠ [0x61]) []
  obtain ⟨next2, added2, table2, appends2, lowMatch, isSecond⟩ := named_added content2 (by simp) adds1.sound
    (by omega) (by simp only [keyData, length_singleton]; omega)
    (by
      rw [table1, isTable]
      exact choose_of_search content2.named searched)
    (.inr ⟨root, [], rfl, nil_suffix, begins, low⟩)
  have adds2 := addRr_adds adds1.sound (by omega) (by omega) valid2 lowMatch added2
  have limit2 := adds2.limit
  have length2 : next2.buffer.length = next1.buffer.length + 4 + fields2.length := appends2.length
  have size2 : fields2.length = 10 + 1 := (fields_of_content content2).1
  have zero : PartAt next2.buffer 47 [0] := by
    have parts : largeRdata = replicate 16 0 ++ ([0] ++ replicate 16383 0) := by
      rw [← replicate_one, replicate_append_replicate, replicate_append_replicate]
      rfl
    have stands := appends1.isFields
    rw [← take_append_drop 10 fields1, isRdata, keyData, parts] at stands
    have zero := stands.right.right.left
    rw [nineteen, length_take, size1, large] at zero
    exact zero.grown adds2.grows (by decide)
  have isByte := appends2.isName.take _ (Nat.le_of_eq length_append.symm)
  obtain ⟨next3, added3, fills⟩ := third_key valid3 adds2.sound (by omega)
    (by rw [length_singleton]; omega) (table2.trans (by rw [table1, isTable]; rfl)) (by decide)
    (isKnown1.grown (by simp only; omega) adds2.grows) isSecond ((PartAt.cons_iff 1).mp isByte).1
    (by simp only [newName]; omega) zero
  obtain ⟨rcode1, opt1, _⟩ := appends1.same
  obtain ⟨rcode2, opt2, _⟩ := appends2.same
  refine ⟨next3, ?_, Filled.cons adds1 rcode1 opt1 (Filled.cons adds2 rcode2 opt2 fills)⟩
  simp only [addUntilFull, added1, added2, added3, bind_ok]
  rfl

end reply

/-- A reply is read in one way. -/
theorem Reads.unique {request : Request} {question : RrData} {answers others : List RrData}
    {tc flag : Bool} {limit : Nat} {reply : Buffer}
    (reads : Reads request question answers tc limit reply)
    (other : Reads request question others flag limit reply) : answers = others ∧ tc = flag := by
  obtain ⟨message, additional, indexed, content, _⟩ := reads.content
  obtain ⟨message', additional', indexed', content', _⟩ := other.content
  cases indexed.symm.trans indexed'
  cases content.symm.trans content'
  cases reads.tc.symm.trans other.tc
  exact ⟨rfl, rfl⟩

/-- The reply to the query has three keys and no flag TC, and its last key is read as one of
the root. -/
theorem large_reply_misread : ∃ wire entry reply, keysBuilder = .ok wire ∧
    PlainQuery largeQuery largeMessage ⟨12, 3, ⟨12, 7⟩⟩ largeQuestion (some 65535) ∧
    LooksUp largeQuery ⟨12, 3, ⟨12, 7⟩⟩ [0x61] ∧
    Stored (oneEntry (finished wire wire.index)) [0x61] entry largeStored ∧
    (∀ record ∈ largeStored, record.type ≠ RrType.cname.toNat) ∧
    largeEngine.negotiated largeQuery (some 65535) = 65535 ∧
    processRequest largeEngine (oneEntry (finished wire wire.index)) 1 largeQuery = ⟨[reply], .ok ()⟩ ∧
    Reads largeQuery largeQuestion largeMisread false 65535 reply ∧
    ¬ Answered largeQuery largeQuestion largeStored 65535 reply := by
  have plain : PlainQuery largeQuery largeMessage ⟨12, 3, ⟨12, 7⟩⟩ largeQuestion (some 65535) := by
    have parsed : Message.createIndex largeQuery.span = .ok largeMessage := by decide +kernel
    have question : Rr.parse largeQuery.span 12 true = .ok ⟨12, 3, ⟨12, 7⟩⟩ := by decide +kernel
    have opt : Rr.parse largeQuery.span 19 false = .ok ⟨19, 1, ⟨19, 11⟩⟩ := by decide +kernel
    refine ⟨parsed, ⟨⟨false, 0, false, 0⟩, by decide +kernel, rfl⟩, ⟨⟨61, 12⟩, rfl, question⟩,
      by decide +kernel, rfl, by decide, ?_, by decide⟩
    exact @Offers.size _ _ [] [] ⟨41, 19⟩ _ 65535 rfl (by simp) (by simp) rfl opt (by decide +kernel)
      (by decide +kernel)
  have looksUp : LooksUp largeQuery ⟨12, 3, ⟨12, 7⟩⟩ [0x61] :=
    ⟨⟨largeQuery.span, 12, 2, 2, 3⟩, by decide +kernel, by decide +kernel⟩
  have noCname : ∀ record ∈ largeStored, record.type ≠ RrType.cname.toNat := by
    simp [largeStored, keyData, RrType.cname]
  obtain ⟨builder, created, started⟩ := createBuilder_plain largeEngine plain
  obtain ⟨base, id, rd, isId, small, twelve, isLimit, adds⟩ := started.adds
  have sameLimit := adds.limit
  have table : (createBuilder largeQuery largeMessage largeQuery.maxReplyBytes.toNat
      largeEngine.getMaxUdpBufferSizeWithOpt >>= fun built =>
        .ok (built.2.labels, built.2.buffer)) = .ok ([⟨12, 15, 2⟩], largeFront) := by decide +kernel
  rw [created] at table
  simp only [bind_ok, ok.injEq, Prod.mk.injEq] at table
  obtain ⟨isTable, isBuffer⟩ := table
  obtain ⟨wire, entry, isWire, found⟩ := large_stored
  obtain ⟨offered, _, valid, offers⟩ := addRecords_offers (fun type => type == 61)
    (records_tell found.reads)
  obtain ⟨final, ran, fills⟩ := large_filled adds.sound (sameLimit.trans isLimit) isBuffer
    isTable valid
  obtain ⟨done, finished, reads⟩ := finish_reads isId small twelve isLimit (by decide) adds started.rcode
    started.opt_small fills
  refine ⟨wire, entry, done.buffer, isWire, plain, looksUp, found, noCname, rfl, ?_, reads, ?_⟩
  · exact processRequest_plain 0 plain looksUp found (.inl noCname) created
      (offers { mb := some builder } builder true final rfl ran) finished
  · rintro ⟨answers, tc, other, complete⟩
    obtain ⟨rfl, rfl⟩ := reads.unique other
    rcases complete with truncated | same
    · cases truncated
    · exact absurd (congrArg (fun records => records.map RrData.labels) same) (by decide)

end Nsblast.Wire.DnsEngine
