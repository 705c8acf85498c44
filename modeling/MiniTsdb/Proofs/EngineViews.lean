import MiniTsdb.Proofs.EngineReads
import MiniTsdb.Proofs.RangeQuery

/-! Views of the engine with open files. The engine reads SSTables as lists of entries; a view
whose files were built from these lists and opened gives the same answers. -/

namespace MiniTsdb
open Lib

/-- An open reader of the file behind a reader of the engine. -/
def FileRef.Opens (ref : FileRef) (captured : ReaderRef) : Prop :=
  ref.file = captured.file ∧ ∃ block_size, ref.BuiltFrom block_size captured.reader.table.entries

/-- A view of the engine with its files open. -/
structure FileView.Shows (view : FileView) (e : Engine) : Prop where
  mem : view.mem = e.mem
  imm : view.imm = e.imm
  ttl_map : view.ttl_map = e.ttl_map
  files : ∀ l, List.Forall₂ FileRef.Opens (view.levels l) (e.store.captureLevels l)
  few : ∀ l, (view.levels l).length < 100000

variable {view : FileView} {e : Engine}

theorem intact_of_opens {levels : Fin kMaxLevel → List ReaderRef}
    (h : ∀ l, List.Forall₂ FileRef.Opens (view.levels l) (levels l))
    (hfew : ∀ l, (view.levels l).length < 100000) : view.Intact := by
  refine ⟨fun l ref href => ?_, hfew⟩
  obtain ⟨i, hi, rfl⟩ := List.getElem_of_mem href
  obtain ⟨-, block_size, hbuilt⟩ := (h l).get hi ((h l).length_eq ▸ hi)
  exact ⟨block_size, _, hbuilt⟩

theorem FileView.Shows.intact (h : view.Shows e) : view.Intact := intact_of_opens h.files h.few

theorem getEntry_opens {ref : FileRef} {captured : ReaderRef} (h : ref.Opens captured) (key : TsKey) :
    ref.getEntry key = some (captured.getEntry key) := by
  obtain ⟨hfile, block_size, hbuilt⟩ := h
  have hget := hbuilt.answers.get key
  rw [FileRef.getEntry, hfile] at hget ⊢
  rw [ReaderRef.getEntry]
  split_ifs at hget ⊢
  · rfl
  · exact hget

theorem searchFiles_opens {refs : List FileRef} {captured : List ReaderRef}
    (h : List.Forall₂ FileRef.Opens refs captured) (key : TsKey) :
    searchFiles key refs = some (captured.findSome? fun c => c.getEntry key) := by
  induction h with
  | nil => rfl
  | @cons ref c refs captured hfirst _ ih =>
    rw [searchFiles, getEntry_opens hfirst, List.findSome?_cons]
    cases c.getEntry key with
    | some entry => rfl
    | none => exact ih

section
variable {levels : Fin kMaxLevel → List ReaderRef}
  (h : ∀ l, List.Forall₂ FileRef.Opens (view.levels l) (levels l))
include h

theorem opens_newestFirst : List.Forall₂ FileRef.Opens view.newestFirst
    ((List.finRange kMaxLevel).flatMap fun l => (levels l).reverse) := by
  rw [FileView.newestFirst]
  induction List.finRange kMaxLevel with
  | nil => exact .nil
  | cons l rest ih =>
    apply List.rel_append
    · exact List.forall₂_reverse_iff.mpr (h l)
    · exact ih

theorem getFromSSTables_opens (key : TsKey) :
    view.getFromSSTables key = some (getFromSSTables levels key) := by
  rw [FileView.getFromSSTables, searchFiles_opens (opens_newestFirst h), MiniTsdb.getFromSSTables,
    ← List.head?_filterMap, List.filterMap_flatMap, List.head?_flatMap]
  simp only [List.head?_filterMap]

end

/-- The open files of a view. -/
structure FileView.Opens (fv : FileView) (view : ReadView) : Prop where
  mem : fv.mem = view.mem
  imm : fv.imm = view.imm
  ttl_map : fv.ttl_map = view.ttl_map
  files : ∀ l, List.Forall₂ FileRef.Opens (fv.levels l) (view.levels l)
  few : ∀ l, (fv.levels l).length < 100000

theorem FileView.Opens.get {fv : FileView} {view : ReadView} (h : fv.Opens view) (key : TsKey) :
    fv.get key = some (view.get key) := by
  rw [FileView.get, ReadView.get, getFromSSTables_opens h.files, h.mem, h.imm, h.ttl_map]
  split_ifs
  · rfl
  · cases view.mem.getEntry key with
    | some entry => rfl
    | none =>
      cases view.imm.bind fun m => m.getEntry key with
      | some entry => rfl
      | none => cases MiniTsdb.getFromSSTables view.levels key <;> rfl

theorem FileView.Shows.opens (h : view.Shows e) : view.Opens e.captureReadView :=
  ⟨h.mem, h.imm, h.ttl_map, h.files, h.few⟩

/-- A read on the open files finds what the engine's reads find. -/
theorem FileView.Shows.get (h : view.Shows e) (key : TsKey) : view.get key = some (e.get key) :=
  h.opens.get key

/-- The file format has room for the entries. -/
structure SSTable.Fits (t : SSTable) : Prop where
  entries : ∀ e ∈ t.entries, FitsEntry e
  blocks : ∀ b ∈ cutBlocks 4096 [] t.entries, (encodeBlock b).length < 2 ^ 31
  count : t.entries.length ≤ kMaxBloomKeys

theorem exists_opens {s : Store} {f : FileMeta} (h : Live s f) (hfits : (s.tableAt f).Fits) :
    ∃ ref : FileRef, ref.Opens ⟨f, ⟨f.file_name, s.tableAt f⟩⟩ := by
  have hsmall : f.smallest = (s.tableAt f).minKey := congrArg FileMeta.smallest h.meta_eq
  have hlarge : f.largest = (s.tableAt f).maxKey := congrArg FileMeta.largest h.meta_eq
  obtain ⟨reader, hbuilt⟩ := exists_builtFrom f 4096 h.ascending hfits.entries hfits.blocks hfits.count
    (by
      intro entry hentry
      rw [hsmall, hlarge]
      exact bounds_of_mem h.ascending hentry)
  exact ⟨⟨f, reader⟩, rfl, 4096, hbuilt⟩

theorem exists_forall₂ {α β : Type} {R : α → β → Prop} {ys : List β} (h : ∀ y ∈ ys, ∃ x, R x y) :
    ∃ xs, List.Forall₂ R xs ys := by
  induction ys with
  | nil => exact ⟨[], .nil⟩
  | cons y ys ih =>
    obtain ⟨x, hx⟩ := h y List.mem_cons_self
    obtain ⟨xs, hxs⟩ := ih fun y' hy' => h y' (List.mem_cons_of_mem y hy')
    exact ⟨x :: xs, .cons hx hxs⟩

theorem exists_shows (h : EngineInv e)
    (hfits : ∀ l, ∀ f ∈ e.store.vmgr.current.level_files l, (e.store.tableAt f).Fits)
    (hfew : ∀ l, (e.store.vmgr.current.level_files l).length < 100000) :
    ∃ view : FileView, view.Shows e := by
  have hopens : ∀ l, ∃ refs, List.Forall₂ FileRef.Opens refs (e.store.captureLevels l) := by
    intro l
    rw [captureLevels_live (h.store.live l)]
    apply exists_forall₂
    intro c hc
    obtain ⟨f, hf, rfl⟩ := List.mem_map.mp hc
    exact exists_opens (h.store.live l f hf) (hfits l f hf)
  choose refs hrefs using hopens
  refine ⟨⟨e.mem, e.imm, refs, e.ttl_map⟩, rfl, rfl, rfl, hrefs, fun l => ?_⟩
  rw [(hrefs l).length_eq, captureLevels_live (h.store.live l), List.length_map]
  exact hfew l

end MiniTsdb
