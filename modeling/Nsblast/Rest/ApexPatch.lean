import Nsblast.Rest.Frame

/-!
# Patching the entry of a zone

`PATCH` on the name of a zone merges the body into the entry of the zone and raises the serial of
the merged SOA. Unlike `PUT` it does not remember the new SOA: with IXFR switched on an assertion
fails before anything is committed. With IXFR off the request commits if the zone is the tenant's
own, the targets of SRV records are in order, and the merged entry can be built, which has limits
of its own. With `append`, old records of the types in the body stay as well.
-/

namespace Nsblast.RestApi

open StorageBuilder Name Program Run

/-- The entry that a patch of the zone writes. -/
def mergedApex (config : Config) (fqdn : Name) (zone built : Entry) (append : Bool) :
    Run Entry := do
  let merged ← built.rrs.foldlM (copyRr fqdn) { tenantId := zone.tenantId }
  let merged ← zone.rrs.foldlM (mergeOld fqdn (built.rrs.map (·.type)) append) merged
  closeMerged config ⟨some zone, none⟩ zone merged

/-- The entry holds the records of the body and the old ones of other types, and with `append`
some of the same types. Its serial is the next one. -/
def Patched (config : Config) (fqdn : Name) (body : JsonBody) (append : Bool) (zone entry : Entry) :
    Prop :=
  ∃ serial, zone.serial = .ok serial ∧ entry.serial = .ok (nextSerial serial) ∧
    ∃ appended : List StoredRr, (entry.rrs.map StoredRr.fact).Perm
        ((bodyFacts config (withoutDot fqdn) body ++
          factsWithout (body.rrs.map (·.type)) (some zone) ++ appended.map StoredRr.fact).map
            (withSerial (nextSerial serial))) ∧
      (∀ rr ∈ appended, rr ∈ zone.rrs ∧ rr.type ∈ body.rrs.map (·.type)) ∧
      (append = false → appended = [])

/-- What a patch of a zone is for. -/
def PatchesApex (config : Config) (server : Server) (call : Call) (body : JsonBody) (append : Bool)
    (zone : Entry) : Prop :=
  ∃ zoneName next entry, server.perform (call.program config) = .ok (zoneName, next) ∧
    next.db.content (entryAt (toLower call.request.target)) = some entry ∧
    Patched config (toLower call.request.target) body append zone entry ∧
    (config.dnsEnableIxfr = true → ∃ serial diff, entry.serial = .ok serial ∧
      next.db.content (diffAt zoneName serial) = some diff)

section merged

variable (config : Config) {target : Name} {body : JsonBody} {append : Bool} {zone built entry : Entry}

theorem mergedApex_patched (stored : Stored (withoutDot (toLower target)) zone)
    (sane : Sane zone.rrs) (isZone : zone.hasType RrType.soa = true)
    (isBuilt : build config target { tenantId := zone.tenantId } body = .ok built)
    (merged : mergedApex config (toLower target) zone built append = .ok entry) :
    Patched config (toLower target) body append zone entry := by
  simp only [mergedApex, closeMerged, RrAndSoa.isSame, Option.isNone_none, Option.isSome_some,
    Bool.and_self, if_true, incrementSoaVersion, bind_eq_ok] at merged
  obtain ⟨copied, copiedNew, both, mergedOld, _, ⟨rrs, incremented, same⟩, finished⟩ := merged
  cases same
  obtain ⟨ofBoth, header, appended, perm, old, none⟩ :=
    merged_facts stored sane rfl rfl isBuilt copiedNew mergedOld
  obtain ⟨soa, others, isRrs, _, _, _, _, _⟩ := stored.soa_found isZone
  have member : soa ∈ zone.rrs := by simp [isRrs]
  have plain : (withoutDot (toLower target)).getLast? ≠ some 0x2E := by
    rw [← stored.owners soa member]
    exact toLower_plain (writeName_plain (stored.writable soa member))
  obtain ⟨first, serial, _, _, _, _, found, read, _⟩ := incrementedRrs_eq_ok incremented
  obtain ⟨raised, only, next⟩ := ofBoth.incremented_serial found read incremented
  have zoneSerial := (serial_of_find stored found).trans read
  have finish := finish_perm config.index entry finished
  have entryStored := stored_finish { both with rrs } entry _ plain
    (by rw [withoutDot_of_plain plain]; exact ofBoth.increment zone incremented)
    (by rw [header]) finished
  have alone : soasOf entry.rrs = [raised] := List.perm_singleton.mp (only ▸ finish.filter _)
  refine ⟨serial, zoneSerial, (entryStored.serial_eq alone).2.2.2.trans next, appended, ?_, old,
    none⟩
  refine (finish.map _).trans ?_
  rw [incremented_facts stored zoneSerial ofBoth incremented]
  exact perm.map _

end merged

section request

variable (config : Config) (server : Server) (session : Session) (fuel : Nat) (target : Name)
  (body : JsonBody) (append : Bool) (zone built : Entry)

theorem authorize_patch_iff (other : Entry) :
    authorize session (.patch body append) ⟨some zone, none⟩ = .ok other ↔
      zone.tenantId = some session.tenantId ∧ zone = other := by
  cases isTenant : zone.tenantId with
  | none => simp [authorize, RrAndSoa.soa, refuse, isTenant]
  | some id =>
    by_cases own : id = session.tenantId <;>
      simp [authorize, RrAndSoa.soa, refuse, isTenant, own, Method.createsOrDeletes]

/-- What a patch of a zone does, up to its end. -/
theorem exec_patch (named : toLower target ≠ []) (content : Address → Option Entry)
    {soa : StoredRr} (found : content (entryAt (toLower target)) = some zone)
    (isZone : zone.hasType RrType.soa = true) (getSoa : zone.getSoa = .ok soa)
    (isBuilt : build config target { tenantId := zone.tenantId } body = .ok built)
    (allowed : session.isAllowed .updateRr (toLower target) = true) :
    (onResourceRecord config session (fuel + 1) ⟨target, .patch body append⟩).exec content = (do
      let _ ← authorize session (.patch body append) ⟨some zone, none⟩
      let (_, checked) ← (checkSrv config (some built)).exec content
      let entry ← mergedApex config (toLower target) zone built append
      if config.dnsEnableIxfr then .aborted
      else .ok (toLower soa.owner, .read (entryAt (toLower target)) (some zone) ::
        (checked ++ [.write (entryAt (toLower target)) (some entry)]))) := by
  have looked : (lookupEntryAndSoa (fuel + 1) (toLower target)).exec content =
      .ok (⟨some zone, none⟩, [.read (entryAt (toLower target)) (some zone)]) := by
    simp [lookupEntryAndSoa, lookupFrom, if_neg named, exec, found, isZone]
  have sbNew : newBuilder ⟨some zone, none⟩ zone = .ok { tenantId := zone.tenantId } := rfl
  have received : (Method.patch body append).mapM (build config target { tenantId := zone.tenantId }) =
      .ok (.patch built append) := by
    rw [Method.mapM, isBuilt, bind_ok]
  have changed : changeOf config session (toLower target) ⟨some zone, none⟩ zone
      (.patch built append) = mergedApex config (toLower target) zone built append >>= fun entry =>
        .ok { data := some entry, needVersionIncrement := false } := by
    simp only [changeOf, patch, allowed, mergedApex]
    cases copying : built.rrs.foldlM (copyRr (toLower target)) { tenantId := zone.tenantId } with
    | ok copied =>
      simp only [bind_ok]
      cases zone.rrs.foldlM (mergeOld (toLower target) (built.rrs.map (·.type)) append) copied with
      | ok both =>
        cases closing : closeMerged config ⟨some zone, none⟩ zone both <;>
          simp [throwIf, closing, RrAndSoa.isSame]
      | _ => rfl
    | _ => rfl
  rw [onResourceRecord, exec_bind, looked, bind_ok]
  simp only [Op.writes_read, Op.writes_nil, Replay.apply_nil, behindLookups]
  rw [exec_done_bind]
  cases authorized : authorize session (.patch body append) ⟨some zone, none⟩ with
  | ok other =>
    obtain ⟨_, rfl⟩ := (authorize_patch_iff session body append zone other).mp authorized
    rw [bind_ok, exec_done_bind, sbNew, bind_ok, exec_done_bind, received, bind_ok, exec_bind]
    cases checks : (checkSrv config (some built)).exec content with
    | ok outcome =>
      have reading := checkSrv_reading ((exec_eq_ok _ _ _ _).mp checks).1
      simp only [Method.body, checks, bind_ok, reading.writes, Replay.apply_nil]
      rw [exec_done_bind, getSoa, bind_ok, exec_done_bind, changed]
      cases mergedApex config (toLower target) zone built append with
      | ok entry =>
        cases ixfr : config.dnsEnableIxfr <;>
          simp [store, raise, logChange, ixfr, exec, exec_bind, write] <;> rfl
      | _ => rfl
    | _ => simp only [Method.body, checks]; rfl
  | _ => rfl

/-- For every zone and every patch of its own name whose body is accepted, by a user who may update
records: the zone is patched exactly if IXFR is off, the zone belongs to the user's tenant, the
targets of SRV records are in order and the merged entry can be built. -/
theorem patchesApex_iff_ixfr_off (call : Call) (orderly : Orderly server.db.content)
    (isPatch : call.request.method = .patch body append) (turns : call.fuel ≠ 0)
    (named : call.request.target ≠ [])
    (found : server.db.content (entryAt (toLower call.request.target)) = some zone)
    (isZone : zone.hasType RrType.soa = true)
    (isBuilt : build config call.request.target { tenantId := zone.tenantId } body = .ok built)
    (allowed : call.session.isAllowed .updateRr (toLower call.request.target) = true) :
    PatchesApex config server call body append zone ↔
      config.dnsEnableIxfr = false ∧ zone.tenantId = some call.session.tenantId ∧
      (∃ checked, (checkSrv config (some built)).exec server.db.content = .ok ((), checked)) ∧
      ∃ entry, mergedApex config (toLower call.request.target) zone built append = .ok entry := by
  obtain ⟨session, fuel, target, method⟩ := call
  obtain ⟨fuel, rfl⟩ := Nat.exists_eq_succ_of_ne_zero turns
  subst isPatch
  have stored := orderly.stored _ zone found
  obtain ⟨soa, _, _, _, _, getSoa, _, _⟩ := stored.soa_found isZone
  have ran := exec_patch config session fuel target body append zone built
    (by simpa [toLower] using named) server.db.content found isZone getSoa isBuilt allowed
  constructor
  · rintro ⟨zoneName, next, entry, performed, _⟩
    rw [Server.perform, Call.program, ran] at performed
    simp only [bind_eq_ok] at performed
    obtain ⟨_, ⟨_, authorized, ⟨_, checked⟩, checks, entry, merged, ended⟩, _⟩ := performed
    cases ixfr : config.dnsEnableIxfr with
    | true => simp [ixfr] at ended
    | false =>
      exact ⟨rfl, ((authorize_patch_iff session body append zone _).mp authorized).1, ⟨checked, checks⟩,
        entry, merged⟩
  · rintro ⟨ixfr, owned, ⟨checked, checks⟩, entry, merged⟩
    have reading := checkSrv_reading ((exec_eq_ok _ _ _ _).mp checks).1
    rw [(authorize_patch_iff session body append zone zone).mpr ⟨owned, rfl⟩] at ran
    simp only [checks, merged, ixfr, bind_ok, Bool.false_eq_true, if_false] at ran
    refine ⟨_, _, entry, server.perform_of_exec _ _ _ ran, ?_, ?_, by simp [ixfr]⟩
    · simp [Server.content_commit, reading.writes, Replay.apply_cons]
    · exact mergedApex_patched config stored (orderly.sane _ zone found) isZone isBuilt merged

end request

def apexBody : JsonBody := ⟨none, [sampleAddress]⟩

/-- A patch of the zone `z` with an address. -/
def patchOfZ : Call := ⟨⟨1, fun _ _ => true⟩, 1, [0x7A], .patch apexBody false⟩

/-- What is built from the body. -/
def builtOfZ : Entry := ⟨some 1, 0, [newRr [0x7A] false RrType.a 300 [1, 1, 1, 1]]⟩

/-- Without IXFR the zone gets the address. -/
theorem address_added_to_apex : PatchesApex { sampleConfig with dnsEnableIxfr := false } serverOfZ patchOfZ
    apexBody false apexOfZ := by
  refine (patchesApex_iff_ixfr_off _ serverOfZ apexBody false apexOfZ builtOfZ patchOfZ orderly_serverOfZ
    rfl (by decide) (by decide) (by decide +kernel) (by decide +kernel) (by decide +kernel) rfl).mpr
    ⟨rfl, rfl, ⟨[], by decide +kernel⟩, ?_⟩
  -- The address is written first and the SOA points to its name.
  exact ⟨⟨some 1, 0, [{ soaOfZ 2 with pointer := true },
    newRr [0x7A] false RrType.a 300 [1, 1, 1, 1]]⟩, by decide +kernel⟩

/-- With IXFR the same request is aborted, and nothing is committed. -/
theorem apex_patch_aborts_with_ixfr :
    build sampleConfig [0x7A] { tenantId := some 1 } apexBody = .ok builtOfZ ∧
      serverOfZ.perform (patchOfZ.program sampleConfig) = .aborted ∧
      ¬ PatchesApex sampleConfig serverOfZ patchOfZ apexBody false apexOfZ := by
  have aborts : (patchOfZ.program sampleConfig).exec serverOfZ.db.content = .aborted := by
    decide +kernel
  have performed : serverOfZ.perform (patchOfZ.program sampleConfig) = .aborted := by
    rw [Server.perform, aborts]
    rfl
  refine ⟨by decide +kernel, performed, ?_⟩
  rintro ⟨_, _, _, returned, _⟩
  cases performed.symm.trans returned

end Nsblast.RestApi
