import MiniTsdb.Proofs.ReadYourWrites

/-! Reads while TTLs are set, raised, lowered and switched off. A key that is not expired when
compactions are picked is never dropped, so a read finds its last write or sees it expired. -/

namespace MiniTsdb
open Lib

/-- The keys that a flush writes out and the record reader of a compaction returns. -/
def TsKey.Stored (key : TsKey) : Prop := TsKey.default ≤ key ∧ key ≤ sstScanLast

instance (key : TsKey) : Decidable key.Stored := inferInstanceAs (Decidable (_ ∧ _))

theorem TsKey.Stored.scanned {key : TsKey} (h : key.Stored) : sstScanned key = true := by
  have hfirst : sstScanFirst ≤ TsKey.default := by decide
  exact decide_eq_true ⟨hfirst.trans h.1, h.2⟩

def EngineAction.picks : EngineAction → Bool
  | pick _ => true
  | _ => false

/-- A compaction is picked only while none of the keys is expired, and nothing crashes. -/
def Engine.Spares (keys : Set TsKey) (e : Engine) (a : EngineAction) : Prop :=
  a.isCrash = false ∧ (a.picks = true →
    ∀ key ∈ keys, isExpiredInMap e.ttl_map key.measurement key.timestamp = false)

theorem keepsKey_of_not_expired {ttl_map : TtlMap} {key : TsKey}
    (h : isExpiredInMap ttl_map key.measurement key.timestamp = false) : keepsKey ttl_map key = true := by
  unfold isExpiredInMap at h
  unfold keepsKey keepRecordForCompaction
  cases hr : ttl_map key.measurement with
  | none => rfl
  | some rule =>
    rw [hr] at h
    simpa using h

/-- The rules of a compaction that runs are those it had before the step, or those of its pick. -/
theorem snapshot_engineStep {e e' : Engine} {a : EngineAction} (h : EngineInv e)
    (hs : e.step a = some e') (hcrash : a ≠ .crash) {run : CompactionRun}
    (hrun : e'.store.compaction = some run) :
    (∃ old, e.store.compaction = some old ∧ run.work = old.work) ∨
      ∃ force, a = .pick force ∧ run.work.ttl_snapshot = e.ttl_map := by
  have hsame : e'.store.compaction = e.store.compaction →
      ∃ old, e.store.compaction = some old ∧ run.work = old.work := fun heq =>
    ⟨run, heq.symm.trans hrun, rfl⟩
  have hstore : ∀ (b : StoreAction) (s : Store), e.store.step b = some s →
      s.compaction = some run → (∀ force ttl_map, b ≠ .pick force ttl_map) →
      ∃ old, e.store.compaction = some old ∧ run.work = old.work := by
    intro b s hb hsrun hpick
    rcases snapshot_step h.store hb hsrun with hold | ⟨force, rfl⟩
    · exact hold
    · exact absurd rfl (hpick _ _)
  have hcall : CallRule fun f : Engine => f.store = e.store :=
    ⟨fun _ _ _ _ h => h, fun _ h _ _ => h, fun _ _ _ h => h⟩
  cases step_kind hs with
  | noop => exact Or.inl (hsame rfl)
  | enter hops => exact Or.inl (hsame (congrArg Store.compaction (hcall.enter rfl _)))
  | resume hr => exact Or.inl (hsame (congrArg Store.compaction (hcall.resume rfl hr)))
  | rotate hr =>
    obtain ⟨rfl, -, -⟩ := flushMem_eq hr
    exact Or.inl (hsame rfl)
  | takeImm ht =>
    obtain ⟨m, -, -, rfl⟩ := takeImm_eq ht
    exact Or.inl (hsame rfl)
  | buildSST hb =>
    obtain ⟨m, s, -, hstep, rfl⟩ := buildSST_eq hb
    exact Or.inl (hstore _ _ hstep hrun fun _ _ heq => by contradiction)
  | logFlush hl =>
    obtain ⟨m, s, -, hc, rfl⟩ := logFlush_eq hl
    exact Or.inl (hstore _ _ hc hrun fun _ _ heq => by contradiction)
  | finishFlush hf =>
    obtain ⟨m, -, rfl⟩ := finishFlush_eq hf
    exact Or.inl (hsame rfl)
  | @store _ b s hb hstep =>
    cases a with
    | pick force =>
      obtain rfl := Option.some.inj hb
      rcases snapshot_step h.store hstep hrun with hold | ⟨force', heq⟩
      · exact Or.inl hold
      · exact Or.inr ⟨force, rfl, (StoreAction.pick.inj heq).2.symm⟩
    | _ =>
      first
      | contradiction
      | obtain rfl := Option.some.inj hb
        exact Or.inl (hstore _ _ hstep hrun fun _ _ heq => by contradiction)
  | commit _ hstep => exact Or.inl (hstore _ _ hstep hrun fun _ _ heq => by contradiction)
  | setTTL => exact Or.inl (hsame rfl)
  | closing _ hc =>
    rw [closing_eq hc] at hrun
    exact Or.inl ⟨run, hrun, rfl⟩
  | shutdown _ hd =>
    obtain ⟨s, hstep, rfl⟩ := shutdown_spec hd
    exact Or.inl (hstore _ _ hstep hrun fun _ _ heq => by contradiction)
  | crash => exact absurd rfl hcrash

/-- What every run that spares the keys keeps. -/
structure SparedInv (keys : Set TsKey) (e : Engine) : Prop where
  engine : EngineInv e
  snapshot : ∀ run, e.store.compaction = some run → ∀ key ∈ keys,
    keepsKey run.work.ttl_snapshot key = true
  newest : ∀ key ∈ keys, e.Newest key

theorem SparedInv.not_drops {keys : Set TsKey} {e : Engine} (h : SparedInv keys e) {key : TsKey}
    (hkey : key ∈ keys) (hstored : key.Stored) (a : EngineAction) : ¬ e.Drops key a := by
  intro hdrops
  cases a with
  | finishFlush =>
    obtain ⟨m, -, hlow, -⟩ := hdrops
    exact hlow hstored.1
  | commit cleanup_obsolete held =>
    obtain ⟨run, hrun, hkeep, -⟩ := hdrops
    rw [CompactionRun.keeps, hstored.scanned, h.snapshot run hrun key hkey] at hkeep
    contradiction
  | _ => exact hdrops

theorem sparedInv_step {keys : Set TsKey} {e e' : Engine} {a : EngineAction} (h : SparedInv keys e)
    (hstored : ∀ key ∈ keys, key.Stored) (hok : e.Spares keys a) (hs : e.step a = some e') :
    SparedInv keys e' := by
  have hcrash : a ≠ .crash := by
    rintro rfl
    exact absurd hok.1 (by simp [EngineAction.isCrash])
  refine ⟨engineInv_step h.engine hs hcrash, fun run hrun key hkey => ?_, fun key hkey => ?_⟩
  · rcases snapshot_engineStep h.engine hs hcrash hrun with ⟨old, hold, hwork⟩ | ⟨force, rfl, hsnapshot⟩
    · rw [hwork]
      exact h.snapshot old hold key hkey
    · rw [hsnapshot]
      exact keepsKey_of_not_expired (hok.2 rfl key hkey)
  · refine newest_step key (callRule_newest key) h.engine (h.newest key hkey) hs hcrash
      fun happlied hsources => ?_
    rcases hsources with hhead | ⟨hdrops, -⟩
    · rw [Engine.Newest, hhead, Engine.lastApplied, happlied]
      exact h.newest key hkey
    · exact absurd hdrops (h.not_drops hkey (hstored key hkey) a)

theorem sparedInv_start (keys : Set TsKey) (db_dir : Bytes) (limit : Int64) (target : ℕ) :
    SparedInv keys (Engine.start db_dir limit target) := by
  refine ⟨engineInv_start db_dir limit target, fun run hrun => ?_, fun key _ => ?_⟩
  · rw [start_open, Store.start, start_eq] at hrun
    contradiction
  · rw [Engine.Newest, sources_start, lastApplied_start]
    rfl

/-- In a run in which a key is not expired at any pick, a read in a view that shows the key
returns nothing if the key is expired by now, and its last write otherwise. -/
theorem read_unless_expired (db_dir : Bytes) (limit : Int64) (target : ℕ) {key : TsKey}
    (hstored : key.Stored) {e : Engine}
    (h : Reach Engine.step (Engine.Spares {key}) (Engine.start db_dir limit target) e)
    (hfree : e.flush.locks = false) (hshown : e.Shown key) :
    e.get key = if isExpiredInMap e.ttl_map key.measurement key.timestamp then none
      else (e.lastApplied key).bind InternalEntry.read := by
  have hinv : SparedInv {key} e :=
    h.invariant (I := SparedInv {key}) (sparedInv_start _ db_dir limit target) fun _ _ _ hi hok hs =>
      sparedInv_step hi (fun _ hk => hk ▸ hstored) hok hs
  rw [get_eq hinv.engine, head?_viewed hinv.engine hfree hshown, hinv.newest key rfl]

/-- A point outlives a compaction under a TTL of ten seconds, expires behind a newer point,
and is there again once the TTL is off. -/
def outlived : List EngineAction :=
  [.put (ascii "cpu") 5 (ascii "v"), .setTTL (ascii "cpu") 10, .flush, .takeImm, .buildSST, .logFlush,
    .finishFlush, .pick true, .readInputs, .writeOutput, .commit true [],
    .put (ascii "cpu") 20000000000 (ascii "w"), .setTTL (ascii "cpu") 0]

theorem read_unless_expired_outlived : ∃ e,
    Reach Engine.step (Engine.Spares {⟨ascii "cpu", 5⟩}) (Engine.start (ascii "db") 1000 0) e ∧
      e.get ⟨ascii "cpu", 5⟩ = some (ascii "v") ∧
      e.get ⟨ascii "cpu", 5⟩ = if isExpiredInMap e.ttl_map (ascii "cpu") 5 then none
        else (e.lastApplied ⟨ascii "cpu", 5⟩).bind InternalEntry.read := by
  have hrun : ((outlived.foldlM (guarded Engine.step fun e a => a.isCrash = false ∧
      (a.picks = true → isExpiredInMap e.ttl_map (ascii "cpu") 5 = false))
      (Engine.start (ascii "db") 1000 0)).map fun e => (e.get ⟨ascii "cpu", 5⟩, e.flush)) =
        some (some (ascii "v"), .idle) := by decide +kernel
  obtain ⟨e, he, hstate⟩ := Option.map_eq_some_iff.mp hrun
  obtain ⟨hvalue, hidle⟩ := Prod.mk.inj hstate
  have hreach : Reach Engine.step (Engine.Spares {⟨ascii "cpu", 5⟩}) (Engine.start (ascii "db") 1000 0) e := by
    refine (reach_of_foldlM he).mono fun e a hok => ⟨hok.1, fun hpick key hkey => ?_⟩
    obtain rfl := Set.mem_singleton_iff.mp hkey
    exact hok.2 hpick
  exact ⟨e, hreach, hvalue, read_unless_expired (ascii "db") 1000 0 (by decide +kernel) hreach
    (by rw [hidle]; rfl) (shown_of_idle hidle _)⟩

end MiniTsdb
