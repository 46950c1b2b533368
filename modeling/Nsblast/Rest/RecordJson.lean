import Nsblast.Storage.Base64
import Nsblast.Wire.Labels

/-!
# A record as JSON

`toJson` writes a record of an entry into the JSON object of the entry, by its type. It reads
names, texts and numbers out of the data of the record alone: a pointer in it leads to a place
in the data. What cannot be read throws, or fails an assertion.

The case of `TYPE_PTR` has no `break`. It goes on with the case of `TYPE_MX`, where
`RrMx::host` throws because the record is none. No record of this type can be written.
-/

namespace Nsblast.RestApi

open Run Buffer

/-- What is written for a record. An address is given by its bytes. -/
inductive RecordJson where
  | a (address : List UInt8)
  | aaaa (address : List UInt8)
  | ns (name : List UInt8)
  | cname (name : List UInt8)
  | soa (mname rname email : List UInt8) (serial refresh retry expire minimum : Nat)
  | mx (host : List UInt8) (priority : Nat)
  | txt (text : List UInt8)
  | srv (target : List UInt8) (priority weight port : Nat)
  | afsdb (host : List UInt8) (subtype : Nat)
  | rp (mbox txt : List UInt8)
  | hinfo (cpu os : List UInt8)
  | dhcid (base64 : List UInt8)
  | openpgpkey (base64 : List UInt8)
  | other (type : UInt16) (base64 : List UInt8)
  deriving DecidableEq

/-- The string of the name at an offset of the data. A name has at most 128 labels. -/
def nameIn (rdata : List UInt8) (offset : Nat) : Run (List UInt8) := do
  let name ← Labels.parse rdata offset
  name.string 128

/-- `RrA::address`. -/
def address (rdata : List UInt8) : Run (List UInt8) := do
  if rdata.length = 4 then .ok rdata
  else do
    Run.assert (rdata.length = 16)
    .ok rdata

/-- `RrSoa::ToEmail`, behind the character `prev`. -/
def toEmail (prev : UInt8) : List UInt8 → List UInt8
  | [] => []
  | ch :: rest =>
      if ch = 0x2E ∧ prev ≠ 0x5C then 0x40 :: rest
      else if ch ≠ 0x5C then ch :: toEmail ch rest
      else toEmail ch rest

/-- A number of a SOA, counted from the end of the data. -/
def soaNumber (rdata : List UInt8) (back : Nat) : Run Nat := do
  Run.assert (minRrLen ≤ rdata.length)
  get32bValueAt rdata (whole rdata) (rdata.length - back)

/-- `RrTxt::string`: the segments, one behind the other. -/
def txtString : Nat → List UInt8 → Run (List UInt8)
  | 0, _ => .ok []
  | _ + 1, [] => .ok []
  | fuel + 1, length :: rest => do
      throwIf (rest.length < length.toNat) "Invalid bounds of string rdata-segment"
      let later ← txtString fuel (rest.drop length.toNat)
      .ok (rest.take length.toNat ++ later)

/-- One turn of `getTextFromRdata`: a text and what is behind it. -/
def nextText : List UInt8 → Run (List UInt8 × List UInt8)
  | [] => .thrown "getTextFromRdata: text field has no length byte!"
  | length :: rest => do
      throwIf (rest.length < length.toNat) "getTextFromRdata - Length exeeds buffer-len!"
      .ok (rest.take length.toNat, rest.drop length.toNat)

/-- One turn of `getLabelsFromRdata`: a name and what is behind it. -/
def nextLabels (rdata : List UInt8) : Run (Labels × List UInt8) := do
  throwIf rdata.isEmpty "getTextFromRdata: field can not be empty!"
  let label ← Labels.parse rdata 0
  .ok (label, rdata.drop label.bytes)

/-- The case of `TYPE_MX`. -/
def mxToJson (type : UInt16) (rdata : List UInt8) : Run RecordJson := do
  throwIf (type ≠ RrType.mx) "Not a TYPE_MX"
  let host ← nameIn rdata 2
  Run.assert (2 ≤ rdata.length)
  let priority ← get16bValueAt rdata (whole rdata) 0
  .ok (.mx host priority)

/-- `toJson`, for a record with its type and data. -/
def toJson (type : UInt16) (rdata : List UInt8) : Run RecordJson :=
  match type.toNat with
  | 1 => do .ok (.a (← address rdata))
  | 28 => do .ok (.aaaa (← address rdata))
  | 2 => do .ok (.ns (← nameIn rdata 0))
  | 5 => do .ok (.cname (← nameIn rdata 0))
  | 6 => do
      let name ← Labels.parse rdata 0
      let mname ← name.string 128
      let rname ← nameIn rdata name.bytes
      .ok (.soa mname rname (toEmail 0 rname) (← soaNumber rdata 20) (← soaNumber rdata 16)
        (← soaNumber rdata 12) (← soaNumber rdata 8) (← soaNumber rdata 4))
  | 11 => do
      let _ ← nameIn rdata 0
      mxToJson type rdata
  | 15 => mxToJson type rdata
  | 16 => do .ok (.txt (← txtString rdata.length rdata))
  | 33 => do
      let target ← nameIn rdata 6
      .ok (.srv target (← get16bValueAt rdata (whole rdata) 0)
        (← get16bValueAt rdata (whole rdata) 2) (← get16bValueAt rdata (whole rdata) 4))
  | 18 => do
      let host ← nameIn rdata 2
      Run.assert (2 ≤ rdata.length)
      .ok (.afsdb host (← get16bValueAt rdata (whole rdata) 0))
  | 17 => do
      let (mbox, rest) ← nextLabels rdata
      let mail ← mbox.string 128
      let (txt, _) ← nextLabels rest
      .ok (.rp (toEmail 0 mail) (← txt.string 128))
  | 13 => do
      let (cpu, rest) ← nextText rdata
      let (os, _) ← nextText rest
      .ok (.hinfo cpu os)
  | 49 => do .ok (.dhcid (← Base64.base64Encode rdata))
  | 61 => do .ok (.openpgpkey (← Base64.base64Encode rdata))
  | _ => do .ok (.other type (← Base64.base64Encode rdata))

/-- The record can be written. -/
def Presentable (rr : StoredRr) : Prop := ∃ json, toJson rr.type rr.rdata = .ok json

/-- A record of `TYPE_PTR` cannot. -/
theorem not_presentable_ptr {rr : StoredRr} (isPtr : rr.type = RrType.ptr) : ¬ Presentable rr := by
  rintro ⟨json, written⟩
  have falls : toJson RrType.ptr rr.rdata =
      (nameIn rr.rdata 0 >>= fun _ => mxToJson RrType.ptr rr.rdata) := rfl
  rw [isPtr, falls, bind_eq_ok] at written
  obtain ⟨_, _, written⟩ := written
  cases written

end Nsblast.RestApi
