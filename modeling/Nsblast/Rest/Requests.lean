import Nsblast.Rest.Effect
import Nsblast.Store.Entries

/-!
# Requests one after the other

A request that does not overlap with others runs on the committed content. Its
writes and deletions are collected in a transaction, which is numbered, logged and
committed at the end. A request that fails leaves the server as it was.
-/

namespace Nsblast

/-- The committed content, by category and key. -/
def Db.content (db : Db Entry) : Address → Option Entry := fun key => (db.families key.1)[key.2]?

namespace Transaction

/-- An operation of a request, on its transaction. -/
def perform (trx : Transaction Entry) : Op Address Entry → Transaction Entry
  | .read _ _ => trx
  | .write key value => (trx.change key.1 key.2 value).addPart key.1 key.2 value

/-- What the transaction sees behind the operations. -/
theorem get_perform (db : Db Entry) (ops : List (Op Address Entry)) (trx : Transaction Entry)
    (content : Address → Option Entry) (seen : ∀ key, trx.get db key.1 key.2 = content key)
    (key : Address) :
    (ops.foldl perform trx).get db key.1 key.2 = Replay.apply content (Op.writes ops) key := by
  induction ops generalizing trx content with
  | nil => exact seen key
  | cons op rest ih =>
    cases op with
    | read read answer => exact ih trx content seen
    | write written value =>
      rw [List.foldl_cons, Op.writes_write, Replay.apply_cons]
      refine ih _ _ fun other => ?_
      have changed : (trx.perform (.write written value)).get db other.1 other.2 =
          (trx.change written.1 written.2 value).get db other.1 other.2 := rfl
      rw [changed, get_change, Function.update_apply]
      by_cases same : other = written
      · rw [if_pos same, if_pos ⟨by rw [same], by rw [same]⟩]
      · rw [if_neg same, if_neg fun both => same (Prod.ext both.1.symm both.2.symm), seen]

end Transaction

/-- The database of a server, and the last transaction id it has given out. -/
structure Server where
  db : Db Entry
  trxId : Nat

namespace Server

/-- Committing the operations of a request. -/
def commit (server : Server) (ops : List (Op Address Entry)) : Server :=
  let numbered := (ops.foldl Transaction.perform {}).handleTrxLog server.trxId
  ⟨numbered.2.commit server.db, numbered.1⟩

/-- A request that nobody else disturbs. -/
def perform {α : Type} (server : Server) (request : Trx α) : Run (α × Server) := do
  let (value, ops) ← request.exec server.db.content
  .ok (value, server.commit ops)

theorem perform_of_exec {α : Type} (server : Server) (request : Trx α) (value : α)
    (ops : List (Op Address Entry)) (ran : request.exec server.db.content = .ok (value, ops)) :
    server.perform request = .ok (value, server.commit ops) := by
  rw [perform, ran, Run.bind_ok]

theorem content_commit (server : Server) (ops : List (Op Address Entry)) :
    (server.commit ops).db.content = Replay.apply server.db.content (Op.writes ops) := by
  funext key
  rw [Db.content, commit, Transaction.commit_get]
  exact Transaction.get_perform server.db ops {} server.db.content (fun _ => rfl) key

theorem perform_eq_ok {α : Type} (server : Server) (request : Trx α) (value : α) (next : Server)
    (returned : server.perform request = .ok (value, next)) :
    ∃ ops, request.Runs ops value ∧ Op.Answered server.db.content ops ∧
      next.db.content = Replay.apply server.db.content (Op.writes ops) := by
  rw [perform, Run.bind_eq_ok] at returned
  obtain ⟨⟨result, ops⟩, ran, same⟩ := returned
  cases same
  obtain ⟨runs, answered⟩ := (Program.exec_eq_ok _ _ _ _).mp ran
  exact ⟨ops, runs, answered, server.content_commit ops⟩

end Server

namespace RestApi

/-- A request and the session it comes from. The fuel bounds the turns of the
lookup. -/
structure Call where
  session : Session
  fuel : Nat
  request : RrRequest

namespace Call

def program (config : Config) (call : Call) : Trx Name :=
  onResourceRecord config call.session call.fuel call.request

/-- The name is written without a final dot. -/
def Plain (call : Call) : Prop := call.request.target.getLast? ≠ some 0x2E

end Call

section sample

/-- The SOA of a zone `z`. -/
def soaOfZ (serial : Nat) : StoredRr :=
  StorageBuilder.newRr [0x7A] false RrType.soa 300
    ([0, 0] ++ be32 serial ++ List.replicate 16 0)

/-- The zone `z` with serial 1 and nothing but its SOA. -/
def apexOfZ : Entry := ⟨some 1, 0, [soaOfZ 1]⟩

def sampleConfig : Config where
  dnsEnableIxfr := true
  dnsValidateSrvTargetsLocally := true
  defaultTtl := 300
  srvTarget _ _ := .aborted
  index := insertionIndex
  items := insertionItems

def sampleAddress : NewRr := ⟨RrType.a, [1, 1, 1, 1], nofun⟩

/-- A request to create an address at a name of one letter below `z`. -/
def postAddress (letter : UInt8) : Call where
  session := ⟨1, fun _ _ => true⟩
  fuel := 3
  request := ⟨[letter, 0x2E, 0x7A], .post ⟨none, [sampleAddress]⟩⟩

theorem stored_apexOfZ : Stored [0x7A] apexOfZ :=
  ⟨⟨by decide +kernel, by decide +kernel, by decide +kernel, by decide +kernel⟩,
    fun _ => ⟨_, [], rfl, rfl⟩⟩

/-- A server with the zone `z` only. -/
def serverOfZ : Server where
  db :=
    { families := fun
        | .entry => (∅ : ColumnFamily Entry).insert (RealKey.ofName [0x7A]) apexOfZ
        | _ => ∅
      trxlog := ∅ }
  trxId := 0

theorem serverOfZ_entry {name : Name} {entry : Entry}
    (found : serverOfZ.db.content (entryAt name) = some entry) :
    name = [0x7A] ∧ entry = apexOfZ := by
  rw [Db.content, serverOfZ] at found
  dsimp only [entryAt] at found
  rw [Std.ExtTreeMap.getElem?_insert] at found
  split at found
  · rename_i same
    cases found
    exact ⟨(RealKey.ofName_injective (Std.LawfulEqCmp.eq_of_compare same)).symm, rfl⟩
  · cases found

theorem tidy_serverOfZ : Tidy serverOfZ.db.content := by
  intro name entry found _
  obtain ⟨rfl, rfl⟩ := serverOfZ_entry found
  exact stored_apexOfZ

/-- The operations of a request that succeeds. -/
def operations (request : Trx Name) (content : Address → Option Entry) : List (Op Address Entry) :=
  match request.exec content with
  | .ok (_, ops) => ops
  | _ => []

theorem postAddress_ran : ((postAddress 0x61).program sampleConfig).exec serverOfZ.db.content =
    .ok ([0x7A], operations ((postAddress 0x61).program sampleConfig) serverOfZ.db.content) := by
  decide +kernel

theorem postAddress_absent : serverOfZ.db.content (entryAt [0x61, 0x2E, 0x7A]) = none := by
  decide +kernel

end sample

end RestApi

end Nsblast
