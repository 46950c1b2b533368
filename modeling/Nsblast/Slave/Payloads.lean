import Nsblast.Slave.ZoneMerge
import Nsblast.Store.Entries

/-!
# Receiving a zone transfer

`Slave::handleIxfrPayloads` reads replies until it has seen the final SOA, hands
the records to a `ZoneMerger`, and saves and commits the result. What a record
means depends on the stage and on the serials alone; the model therefore first
judges a record and then performs what the judgement asks for. The replies are
given as the answers they contain. A connection that ends before the final SOA
throws.

`checkIfDone`, the log and the checks on the header of a reply are left out.
-/

namespace Nsblast

/-- The changes by the lower case of the name. -/
structure ZoneMerger where
  changes : Std.ExtTreeMap Name ZoneMerge := ∅
  fetchExisting : Bool

namespace ZoneMerger

/-- A new element of `changes_`. -/
def start (find : Name → Option Entry) (fetchExisting : Bool) (key : Name) : Run ZoneMerge :=
  if fetchExisting then ZoneMerge.addExisting (find key) {} else .ok {}

/-- The element `get` returns. -/
def get (find : Name → Option Entry) (merger : ZoneMerger) (fqdn : Name) : Run ZoneMerge :=
  match merger.changes[Name.toLower fqdn]? with
  | some zone => .ok zone
  | none => start find merger.fetchExisting (Name.toLower fqdn)

/-- `get` together with what the caller does to the element. -/
def change (find : Name → Option Entry) (merger : ZoneMerger) (fqdn : Name)
    (f : ZoneMerge → Run ZoneMerge) : Run ZoneMerger := do
  let zone ← merger.get find fqdn
  let next ← f zone
  .ok { merger with changes := merger.changes.insert (Name.toLower fqdn) next }

/-- The constructor. -/
def construct (find : Name → Option Entry) (zoneFqdn : Name) (fetchExisting : Bool) :
    Run ZoneMerger :=
  change find { fetchExisting } zoneFqdn .ok

def merge (sorter : Sorter recordLess) (merger : ZoneMerger) : Run ZoneMerger := do
  let changes ← OrderedMap.update (ZoneMerge.merge sorter) merger.changes
  .ok { merger with changes }

/-- The last lines of `ZoneMerge::save`. -/
def store (db : Db Entry) (trx : Transaction Entry) (key : Name) (data : Option Entry) :
    Run (Transaction Entry) :=
  match data with
  | none => .ok (trx.remove db (RealKey.ofName key) false .entry)
  | some entry => trx.write db (RealKey.ofName key) entry false .entry

def saveFrom (sorter : Sorter indexLess) (db : Db Entry) :
    List (Name × ZoneMerge) → Transaction Entry → Run (Transaction Entry)
  | [], trx => .ok trx
  | (key, zone) :: rest, trx => do
      let data ← zone.save sorter
      let next ← store db trx key data
      saveFrom sorter db rest next

def save (sorter : Sorter indexLess) (db : Db Entry) (merger : ZoneMerger)
    (trx : Transaction Entry) : Run (Transaction Entry) :=
  saveFrom sorter db merger.changes.toList trx

end ZoneMerger

namespace Slave

/-- `Stage`. -/
inductive Stage where
  | needFirstSoa
  | haveFirstSoa
  | haveIxfrDelSoa
  | haveIxfrAddSoa
  | haveFinalSoa
  deriving DecidableEq, Repr

/-- The variables of the loop that decide what a record means. -/
structure Control where
  stage : Stage := .needFirstSoa
  isIxfr : Bool
  currentSerial : Nat := 0
  prevSerial : Nat := 0
  deriving DecidableEq, Repr

/-- What is done with a record. `restart` falls back to a full transfer and then
adds the record. -/
inductive Action where
  | pass
  | setSoa
  | add
  | delete
  | restart
  deriving DecidableEq, Repr

/-- The first record of all. -/
def judgeFirst (zone : Name) (control : Control) (rr : Record) : Run (Control × Action) := do
  Run.throwIf (rr.type ≠ RrType.soa) "Slave::sync - Invalid I/AXFR payload."
  let serial ← soaSerial rr.toBody
  Run.throwIf (zone ≠ Name.toLower rr.owner)
    "Slave::sync - Invalid AXFR payload. Unexpected fqdn in first SOA."
  .ok ({ control with stage := .haveFirstSoa, currentSerial := serial }, .pass)

/-- A SOA whose serial is below the current one. -/
def judgeOldSoa (control : Control) (serial : Nat) : Run (Control × Action) := do
  Run.throwIf (control.isIxfr = false)
    "Slave::sync - Invalid AXFR payload. SOA's must have the same serial."
  match control.stage with
  | .haveFirstSoa | .haveIxfrAddSoa =>
      .ok ({ control with stage := .haveIxfrDelSoa, prevSerial := serial }, .pass)
  | .haveIxfrDelSoa => do
      Run.throwIf (serial ≤ control.prevSerial)
        "Slave::sync - Invalid IXFR payload. IXFR ADD sequence in the wrong order."
      .ok ({ control with stage := .haveIxfrAddSoa, prevSerial := serial }, .pass)
  | _ => .ok ({ control with prevSerial := serial }, .pass)

/-- The comparison of a later SOA's serial with the current one. -/
def judgeSerial (control : Control) (serial : Nat) : Run (Control × Action) :=
  if serial = control.currentSerial then
    if control.isIxfr = true ∧ control.stage = .haveIxfrDelSoa then
      .ok ({ control with stage := .haveIxfrAddSoa, prevSerial := serial }, .pass)
    else .ok ({ control with stage := .haveFinalSoa, prevSerial := serial }, .setSoa)
  else if serial < control.currentSerial then judgeOldSoa control serial
  else
    .thrown "Slave::sync - Invalid I/AXFR payload. Trailing SOA has higher serial than first SOA."

/-- Any later SOA. -/
def judgeSoa (zone : Name) (control : Control) (rr : Record) : Run (Control × Action) := do
  Run.throwIf (zone ≠ Name.toLower rr.owner)
    "Slave::sync - Invalid AXFR payload. SOA's must have the same labels."
  let serial ← soaSerial rr.toBody
  judgeSerial control serial

/-- A record that is not a SOA. -/
def judgePlain (control : Control) : Control × Action :=
  match control.stage with
  | .haveIxfrAddSoa => (control, .add)
  | .haveIxfrDelSoa => (control, .delete)
  | .haveFirstSoa =>
      ({ control with stage := .haveIxfrAddSoa, isIxfr := false },
        if control.isIxfr then .restart else .add)
  | _ => (control, .pass)

/-- The tests in the loop over the answers of a reply. -/
def judge (zone : Name) (control : Control) (rr : Record) : Run (Control × Action) :=
  if control.stage = .haveFinalSoa then
    .thrown "Slave::sync - Invalid I/AXFR payload. More RR's after second SOA."
  else if control.stage = .needFirstSoa then judgeFirst zone control rr
  else if rr.type = RrType.soa then judgeSoa zone control rr
  else .ok (judgePlain control)

/-- The state of the loop. -/
structure Transfer where
  control : Control
  merger : ZoneMerger
  trx : Transaction Entry

variable (recordSorter : Sorter recordLess) (indexSorter : Sorter indexLess)
variable (db : Db Entry) (zone : Name)

/-- What an action does to the changes of its name. -/
def act (fetchExisting : Bool) (action : Action) (rr : Record) (merge : ZoneMerge) :
    Run ZoneMerge :=
  match action with
  | .add | .restart => .ok (merge.addAdded rr)
  | .delete => .ok (merge.addDeleted rr)
  | .setSoa => if fetchExisting then merge.replaceSoa rr else .ok (merge.addAdded rr)
  | .pass => .ok merge

/-- The name whose changes an action concerns: `setSoa` takes the zone. -/
def target (action : Action) (rr : Record) : Name :=
  match action with
  | .setSoa => zone
  | _ => rr.owner

/-- `merger.emplace` and the removal of the zone, for a full transfer that
answers a request for differences. -/
def fallBack (transfer : Transfer) : Run Transfer := do
  let merger ← ZoneMerger.construct (lookup db transfer.trx) zone false
  .ok { transfer with
    merger
    trx := transfer.trx.remove db (RealKey.ofName zone) true .entry }

/-- Handing the record to the changes of its name. -/
def apply (transfer : Transfer) (action : Action) (rr : Record) : Run Transfer := do
  let merger ← transfer.merger.change (lookup db transfer.trx) (target zone action rr)
    (act transfer.merger.fetchExisting action rr)
  .ok { transfer with merger }

def perform (transfer : Transfer) (action : Action) (rr : Record) : Run Transfer :=
  match action with
  | .pass => .ok transfer
  | .restart => do
      let restarted ← fallBack db zone transfer
      apply db zone restarted .add rr
  | _ => apply db zone transfer action rr

/-- The loop over the answers of one reply. -/
def onAnswers : List Record → Transfer → Run Transfer
  | [], transfer => .ok transfer
  | rr :: rest, transfer => do
      let (control, action) ← judge zone transfer.control rr
      let next ← perform db zone { transfer with control } action rr
      onAnswers rest next

/-- The merge behind each reply. -/
def mergeReply (transfer : Transfer) : Run Transfer := do
  let merger ← transfer.merger.merge recordSorter
  .ok { transfer with merger }

/-- The loop over the replies. -/
def onReplies : List (List Record) → Transfer → Run Transfer
  | replies, transfer =>
      if transfer.control.stage = .haveFinalSoa then .ok transfer
      else match replies with
        | [] => .thrown "Slave::getReply: Failed to read reply-len"
        | answers :: rest => do
            let handled ← onAnswers db zone answers transfer
            let merged ← mergeReply recordSorter handled
            onReplies rest merged

/-- `Slave::handleIxfrPayloads`. -/
def handleIxfrPayloads (trxId : Nat) (trx : Transaction Entry) (mySerial : Nat)
    (replies : List (List Record)) : Run (Db Entry) := do
  let isIxfr := mySerial != 0
  let merger ← ZoneMerger.construct (lookup db trx) zone isIxfr
  let transfer ← onReplies recordSorter db zone replies
    { control := { isIxfr }, merger, trx }
  let saved ← transfer.merger.save indexSorter db transfer.trx
  .ok (Transaction.commit db (Transaction.handleTrxLog trxId saved).2)

/-- `Slave::doAxfr`, from the replies to its question. -/
def doAxfr (trxId : Nat) (replies : List (List Record)) : Run (Db Entry) :=
  handleIxfrPayloads recordSorter indexSorter db zone trxId
    (Transaction.remove db {} (RealKey.ofName zone) true .entry) 0 replies

end Slave

end Nsblast
