import Nsblast.Rest.RecordJson
import Nsblast.Rest.Zone
import Nsblast.Store.Entries

/-!
# Listing the names of a zone

`RestApi::listZone` checks once whether the session may read the zone it is asked for,
and then walks over the entries whose keys are in the zone, one page at a time. A page
that follows another begins behind the name given by `from`, or before it when the
direction is backward.

Names are shown as they are in the keys, or with their records as the first record has
them. Without a record that can be written there is no page. Reading the number of a limit
is a function that is given.
-/

namespace Nsblast

/-- `RealKey::isInZone`, for the key of an entry. -/
def RealKey.isInZone (key : Key) (zone : Name) : Bool :=
  let bytes := key.drop 1
  zone.reverse.isPrefixOf bytes && (bytes.drop zone.length).head?.all (· == 0x2E)

/-- `validateFqdn`: what the pattern accepts. -/
def validateFqdn (fqdn : Name) : Bool :=
  let letter (ch : UInt8) : Bool :=
    (0x61 ≤ ch && ch ≤ 0x7A) || (0x41 ≤ ch && ch ≤ 0x5A) || (0x30 ≤ ch && ch ≤ 0x39)
  (fqdn.splitOn 0x2E).all fun
    | [] => false
    | first :: rest => (first == 0x5F || letter first) && rest.all fun ch => letter ch || ch == 0x2D

namespace RestApi

open AuthMgr

inductive KindOfListing where
  | default | id | brief | verbose
  deriving DecidableEq, Repr

/-- `getKindOfListing`. -/
def getKindOfListing (argument : Option String) (valid : List KindOfListing) : Run KindOfListing :=
  match argument with
  | none => .ok .default
  | some key =>
      let kinds := [("id", KindOfListing.id), ("brief", .brief), ("default", .default),
        ("verbose", .verbose)]
      match kinds.lookup key with
      | some kind =>
          if kind ∈ valid then .ok kind else refuse 400 ("Unknown 'kind' " ++ key ++ " here")
      | none => refuse 400 ("Unknown 'kind' " ++ key)

/-- `getDirection`. -/
def getDirection (argument : Option String) : Run Bool :=
  match argument with
  | none => .ok true
  | some direction =>
      if direction = "forward" then .ok true
      else if direction = "backward" then .ok false
      else refuse 400 ("direction must be `forward` or `backward`, not `" ++ direction ++ "`")

/-- One element of a listing: a name, or an entry with its records. -/
inductive Listed where
  | name (fqdn : Name)
  | entry (fqdn : Name) (ttl : UInt32) (rrs : List RecordJson)
  deriving DecidableEq

/-- The name that is shown. -/
def Listed.fqdn : Listed → Name
  | name fqdn => fqdn
  | entry fqdn _ _ => fqdn

/-- The comparison of `sort_json`. -/
abbrev listedLess (first second : Listed) : Bool := compare first.fqdn second.fqdn == .lt

structure ListEnv extends ZoneEnv where
  restMaxPageSize : Nat
  restDefaultPageSize : Nat
  stoi : String → Run Int
  names : Sorter listedLess

/-- The arguments of a request for a listing. The name to begin at is empty if it was
not given. -/
structure ListQuery where
  kind : Option String
  limit : Option String
  start : Name
  direction : Option String

/-- The reply. -/
structure Page where
  more : Bool
  limit : Nat
  kfirst : Name
  klast : Name
  value : List Listed

/-- `getPageSize`. A negative number is converted to `size_t`. -/
def getPageSize (env : ListEnv) (limit : Option String) : Run Nat :=
  match limit with
  | none => .ok env.restDefaultPageSize
  | some text => do
      let number ← env.stoi text
      let psize := (number % 2 ^ 64).toNat
      .ok (if psize ≠ 0 then min psize env.restMaxPageSize else env.restDefaultPageSize)

/-- Where the walk begins, whether it skips the key it finds there, and its direction. -/
def getStart (zone : Name) (query : ListQuery) : Run (Name × Bool × Bool) :=
  if query.start = [] then .ok (zone, false, true)
  else do
    let forward ← getDirection query.direction
    Run.throwIf (!validateFqdn query.start) "400 Invalid fqdn in 'from' argument"
    Run.throwIf (!isSameZone zone query.start)
      "400 'from' argument is outside the bounds of the target (zone) argument!"
    .ok (query.start, true, forward)

/-- The loop of the listing over the keys that are still to be visited, with the number
of those that were. -/
def visit (key : Key) (zone : Name) (pageSize : Nat) :
    Nat → List (Key × Value) → List (Key × Value) × Bool
  | _, [] => ([], false)
  | count, (k, value) :: rest =>
      if !RealKey.isSameKeyClass key k then ([], false)
      else if !RealKey.isInZone k zone then ([], false)
      else if count + 1 > pageSize then ([], true)
      else
        let (list, more) := visit key zone pageSize (count + 1) rest
        ((k, value) :: list, more)

/-- What is shown of a key and its value. -/
def listed (kind : KindOfListing) (item : Key × Value) : Run Listed :=
  if kind = .verbose then
    match item.2 with
    | .entry entry =>
        match entry.rrs with
        | [] => .ok (.name (nameOf item.1))
        | first :: _ => do
            let rrs ← entry.rrs.mapM fun rr => toJson rr.type rr.rdata
            .ok (.entry first.owner first.ttl rrs)
    | _ => .outOfBounds
  else .ok (.name (nameOf item.1))

/-- `getKeys`. -/
def getKeys (list : List Listed) (forward : Bool) : Name × Name :=
  match list.head?, list.getLast? with
  | some first, some last => if forward then (first.fqdn, last.fqdn) else (last.fqdn, first.fqdn)
  | _, _ => ([], [])

/-- `RestApi::listZone`. -/
def listZone (env : ListEnv) (db : Db Value) (login : Login) (argument : Option Bytes)
    (target : Name) (query : ListQuery) : Run Page := do
  let (session, _, _) ← getSessionAndTenant env.toZoneEnv db login argument true
  let kind ← getKindOfListing query.kind [.default, .verbose]
  let fqdn := Name.toLower target
  let (allowed, _) ← (isAllowed env.fuel session .readZone fqdn true).exec db.entryContent
  Run.throwIf (!allowed) "403 Access Denied"
  let pageSize ← getPageSize env query.limit
  let (start, skipKey, forward) ← getStart fqdn query
  let key := RealKey.ofName start
  let (found, more) := visit key fqdn pageSize 0
    (OrderedMap.fromPrev (db.families .entry) key skipKey forward)
  let list ← found.mapM (listed kind)
  let (kfirst, klast) := getKeys list forward
  .ok ⟨more, pageSize, kfirst, klast, env.names.sort list⟩

end RestApi

end Nsblast
