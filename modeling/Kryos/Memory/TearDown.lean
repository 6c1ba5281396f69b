import Kryos.Memory.FrameOwnership

/-! An address space from its creation to its end. The caller takes frames for its pages, maps
them and unmaps them; `vmm_destroy_address_space` then frees the tables and nothing else. -/
namespace Kryos.Memory

/-- A space created in `k₀`, with the frames that the caller has taken for its pages since then.
A page may also be a frame that was taken before. Each call may fail. -/
inductive CallerRun (k₀ : Kmem) (root : Nat) : Kmem → List Nat → Prop where
  | create {k : Kmem} (hCreate : vmmCreateAddressSpace k₀ = (some root, k)) :
      CallerRun k₀ root k []
  | take {k : Kmem} {held : List Nat} (prior : CallerRun k₀ root k held) {frame : Nat} {p : Pmm}
      (hAlloc : pmmAllocPage k.pmm = (frame * pmmPageSize, p)) (hSome : frame ≠ 0) :
      CallerRun k₀ root { k with pmm := p } (frame :: held)
  | map {k : Kmem} {held : List Nat} (prior : CallerRun k₀ root k held) {va frame : Nat}
      (flags : Nat) (hva : va < 2 ^ 47)
      (hFrame : frame ∈ held ∨
        frame < k₀.pmm.totalFrames ∧ Bitmap.isSet k₀.pmm.bitmap frame = true) :
      CallerRun k₀ root (vmmMapPage k root va (frame * pmmPageSize) flags).2 held
  | unmap {k : Kmem} {held : List Nat} (prior : CallerRun k₀ root k held) {va : Nat}
      (hva : va < 2 ^ 47) : CallerRun k₀ root (vmmUnmapPage k root va).2 held

/-- Every frame taken since `k₀` is a table of the space or held by the caller. -/
structure Accounted (k₀ k : Kmem) (root : Nat) (held : List Nat) : Prop where
  inv : AsInv k root
  ready : k.pmm.Ready
  fixed : k.pmm = { k₀.pmm with bitmap := k.pmm.bitmap, usedFrames := k.pmm.usedFrames }
  taken : ∀ f, Bitmap.isSet k.pmm.bitmap f = true ↔
    Bitmap.isSet k₀.pmm.bitmap f = true ∨ k.TableFrame root f ∨ f ∈ held
  tables : ∀ f, k.TableFrame root f → Bitmap.isSet k₀.pmm.bitmap f = false ∧ f ∉ held
  nodup : held.Nodup
  own : ∀ f ∈ held, f < k₀.pmm.totalFrames ∧ Bitmap.isSet k₀.pmm.bitmap f = false
  pages : ∀ f, k.LeafFrame root f → Bitmap.isSet k₀.pmm.bitmap f = true ∨ f ∈ held

namespace Accounted

variable {k₀ k k' : Kmem} {root : Nat} {held : List Nat}

theorem create (hReady : k₀.pmm.Ready) (hCreate : vmmCreateAddressSpace k₀ = (some root, k)) :
    Accounted k₀ k root [] := by
  obtain ⟨hInv, hReady'⟩ := AsInv.create hReady hCreate
  obtain ⟨⟨frame, _, hRoot, hLt, hClear, hTake⟩, hEmpty⟩ :=
    vmmCreateAddressSpace_some hReady hCreate
  have hTable : ∀ f, k.TableFrame root f ↔ f = frame := by
    intro f
    constructor
    · rintro ⟨path, hPath, hSome⟩
      have hSame := hRoot.symm.trans (table_of_empty hEmpty hPath hSome).2.symm
      simp only [pmmPageSize] at hSame
      omega
    · rintro rfl
      exact ⟨[], TablePath.nil, congrArg some hRoot⟩
  refine ⟨hInv, hReady', by rw [hTake]; rfl, fun f => ?_, fun f hf => ?_, List.nodup_nil,
    fun f hf => (by cases hf), ?_⟩
  · rw [hTable, hTake]
    simp [Pmm.take, Bitmap.isSet_set, or_comm]
  · rw [(hTable f).mp hf]
    exact ⟨hClear, List.not_mem_nil⟩
  · rintro f ⟨va, hva, e, hLeaf, _⟩
    rw [leafOf_of_empty hEmpty hva] at hLeaf
    cases hLeaf

theorem take (h : Accounted k₀ k root held) {frame : Nat} (hLt : frame < k.pmm.totalFrames)
    (hClear : Bitmap.isSet k.pmm.bitmap frame = false) :
    Accounted k₀ { k with pmm := k.pmm.take frame } root (frame :: held) := by
  have hNot :
      ¬(Bitmap.isSet k₀.pmm.bitmap frame = true ∨ k.TableFrame root frame ∨ frame ∈ held) := by
    rw [← h.taken, hClear]
    exact Bool.false_ne_true
  rw [not_or, not_or, Bool.not_eq_true] at hNot
  obtain ⟨hOld, hNotTable, hNotHeld⟩ := hNot
  have hLeaves : LeavesTables k { k with pmm := k.pmm.take frame } root := by
    refine ⟨h.ready.take hLt hClear, fun _ _ => rfl, fun f hf => ?_⟩
    obtain ⟨hBelow, hSet⟩ := h.inv.tableFrame_set hf
    exact ⟨hBelow, by simp [Pmm.take, Bitmap.isSet_set, hSet]⟩
  refine ⟨hLeaves.asInv h.inv, hLeaves.ready, ?_, fun f => ?_, fun f hf =>
    ?_, ?_, ?_, fun f hf => ?_⟩
  · exact congrArg (Pmm.take · frame) h.fixed
  · change Bitmap.isSet (Bitmap.set k.pmm.bitmap frame) f = true ↔
      _ ∨ k.TableFrame root f ∨ f ∈ frame :: held
    rw [Bitmap.isSet_set, Bool.or_eq_true, decide_eq_true_eq, h.taken, List.mem_cons,
      or_left_comm, @or_left_comm (f = frame)]
  · obtain ⟨hFree, hNotIn⟩ := h.tables f hf
    refine ⟨hFree, ?_⟩
    rw [List.mem_cons, not_or]
    exact ⟨fun hEq => hNotTable (hEq ▸ hf), hNotIn⟩
  · exact List.nodup_cons.mpr ⟨hNotHeld, h.nodup⟩
  · intro f hf
    have hTotal : k.pmm.totalFrames = k₀.pmm.totalFrames := by rw [h.fixed]
    rcases List.mem_cons.mp hf with rfl | hOwn
    · exact ⟨hTotal ▸ hLt, hOld⟩
    · exact h.own f hOwn
  · exact (h.pages f hf).imp_right (List.mem_cons_of_mem _)

/-- A call on the space adds tables, and a leaf for a frame of the caller. -/
theorem update (h : Accounted k₀ k root held) {va : Nat} {success : Bool} {changed : Option Nat}
    (hUpdate : LeafUpdate k k' root va success changed)
    (hChanged : ∀ e f, changed = some e → e &&& pteFrameMask = f * pmmPageSize →
      Bitmap.isSet k₀.pmm.bitmap f = true ∨ f ∈ held) : Accounted k₀ k' root held := by
  have hGrowth := hUpdate.growth
  refine ⟨hUpdate.inv, hUpdate.ready, ?_, fun f => ?_, fun f hf => ?_, h.nodup, h.own, ?_⟩
  · rw [hGrowth.fixed, h.fixed]
  · rw [hGrowth.frames, h.taken]
    have hKept : k.TableFrame root f → k'.TableFrame root f := hGrowth.tableFrame
    tauto
  · rcases hGrowth.fresh f hf with hOld | hFree
    · exact h.tables f hOld
    · have hNot := mt (h.taken f).mpr (by rw [hFree]; exact Bool.false_ne_true)
      rw [not_or, not_or, Bool.not_eq_true] at hNot
      exact ⟨hNot.1, hNot.2.2⟩
  · rintro f ⟨vb, hvb, e, hLeaf, hMask⟩
    rw [hUpdate.leaves vb hvb] at hLeaf
    split at hLeaf
    · exact hChanged e f hLeaf hMask
    · exact h.pages f ⟨vb, hvb, e, hLeaf, hMask⟩

end Accounted

theorem CallerRun.accounted {k₀ k : Kmem} {root : Nat} {held : List Nat} (hReady : k₀.pmm.Ready)
    (hRun : CallerRun k₀ root k held) : Accounted k₀ k root held := by
  induction hRun with
  | create hCreate => exact .create hReady hCreate
  | @take k held _ frame p hAlloc hSome ih =>
    rcases ih.ready.alloc with ⟨_, hNone⟩ | ⟨other, _, hLt, hClear, hTaken⟩
    · rw [hAlloc, Prod.mk.injEq] at hNone
      simp only [pmmPageSize] at hNone
      omega
    · rw [hAlloc, Prod.mk.injEq] at hTaken
      obtain ⟨hSame, rfl⟩ := hTaken
      obtain rfl : frame = other := by
        simp only [pmmPageSize] at hSame
        omega
      exact ih.take hLt hClear
  | @map k held _ va frame flags hva hFrame ih =>
    have hTotal : k.pmm.totalFrames = k₀.pmm.totalFrames := by rw [ih.fixed]
    have hLt : frame < k.pmm.totalFrames := by
      rw [hTotal]
      exact hFrame.elim (fun hHeld => (ih.own frame hHeld).1) And.left
    have hPhys : IsFrame (frame * pmmPageSize) := ⟨Nat.mul_mod_left _ _, ih.ready.below hLt⟩
    refine ih.update (ih.inv.mapPage ih.ready hva hPhys flags).1 ?_
    rintro e f ⟨⟩ hMask
    rw [(leafEntry_bits hPhys flags).1] at hMask
    obtain rfl : frame = f := by
      simp only [pmmPageSize] at hMask
      omega
    exact hFrame.symm.imp_left And.right
  | unmap _ hva ih =>
    exact ih.update (ih.inv.unmapPage ih.ready hva).1 (fun _ _ hNone => by cases hNone)

theorem foldlM_pmmFreePage {p : Pmm} (h : p.Ready) {frames : List Nat} (hNodup : frames.Nodup)
    (hHolds : p.Holds (· ∈ frames)) :
    ∃ p', frames.foldlM (fun p frame => pmmFreePage p (frame * pmmPageSize)) p = .ok p' ∧
      p.Freed p' (· ∈ frames) := by
  induction frames generalizing p with
  | nil => exact ⟨p, rfl, .none h fun f hf => nomatch hf⟩
  | cons frame frames ih =>
    obtain ⟨hNot, hRest⟩ := List.nodup_cons.mp hNodup
    obtain ⟨p₁, hFree, hFreed⟩ := pmmFreePage_freed h
      (fun f hf => hHolds f (hf ▸ List.mem_cons_self))
    obtain ⟨p₂, hFold, hFreed'⟩ := ih hFreed.ready hRest (hFreed.holds
      (fun f hf => hHolds f (List.mem_cons_of_mem _ hf)) (fun f hEq hf => hNot (hEq ▸ hf)))
    refine ⟨p₂, ?_, (hFreed.trans hFreed').congr (fun f => List.mem_cons.symm)⟩
    rw [List.foldlM_cons, hFree]
    exact hFold

/-- The end of a space: the tables are freed, each of them once, since a second time is a panic.
They are the frames that the calls on the space have taken; pages, and whatever was allocated
before the creation, stay. Once the caller has freed its frames, as many are free as before. -/
theorem destroy_frees_tables {k₀ k : Kmem} {root : Nat} {held : List Nat} (hReady : k₀.pmm.Ready)
    (hRun : CallerRun k₀ root k held) :
    ∃ k', vmmDestroyAddressSpace k root = .ok k' ∧ k.pmm.Freed k'.pmm (k.TableFrame root) ∧
      (∀ f, k.TableFrame root f ↔ Bitmap.isSet k.pmm.bitmap f = true ∧
        Bitmap.isSet k₀.pmm.bitmap f = false ∧ f ∉ held) ∧
      (∀ f, k.LeafFrame root f → Bitmap.isSet k'.pmm.bitmap f = true) ∧
      (∀ f, Bitmap.isSet k₀.pmm.bitmap f = true → Bitmap.isSet k'.pmm.bitmap f = true) ∧
      ∀ order : List Nat, order.Perm held → ∃ p,
        order.foldlM (fun p frame => pmmFreePage p (frame * pmmPageSize)) k'.pmm = .ok p ∧
          pmmFreeFrames p = pmmFreeFrames k₀.pmm := by
  have h := hRun.accounted hReady
  have hTables : ∀ f, k.TableFrame root f ↔ Bitmap.isSet k.pmm.bitmap f = true ∧
      Bitmap.isSet k₀.pmm.bitmap f = false ∧ f ∉ held := by
    intro f
    rw [h.taken, ← Bool.not_eq_true]
    have hFresh := h.tables f
    rw [← Bool.not_eq_true] at hFresh
    tauto
  obtain ⟨k', hDestroy, hFreed⟩ :=
    h.inv.destroy_since hReady h.ready h.fixed (fun f hf => (h.tables f hf).1)
  have hLeft : ∀ f, Bitmap.isSet k'.pmm.bitmap f = true ↔
      Bitmap.isSet k₀.pmm.bitmap f = true ∨ f ∈ held := by
    intro f
    rw [hFreed.bits, hTables, h.taken]
    rw [← Bool.not_eq_true] at *
    tauto
  refine ⟨k', hDestroy, hFreed, hTables, fun f hf => (hLeft f).mpr (h.pages f hf),
    fun f hf => (hLeft f).mpr (.inl hf), fun order hPerm => ?_⟩
  have hTotal : k'.pmm.totalFrames = k₀.pmm.totalFrames := by rw [hFreed.fixed, h.fixed]
  have hEnd : k'.pmm.bitmapEnd = k₀.pmm.bitmapEnd := by rw [hFreed.fixed, h.fixed]; rfl
  have hHolds : k'.pmm.Holds (· ∈ order) := by
    intro f hf
    obtain ⟨hLt, hClear⟩ := h.own f (hPerm.mem_iff.mp hf)
    exact ⟨hTotal ▸ hLt, (hLeft f).mpr (.inr (hPerm.mem_iff.mp hf)), hEnd ▸ hReady.above hLt hClear⟩
  obtain ⟨p, hFold, hFreed'⟩ := foldlM_pmmFreePage hFreed.ready (hPerm.nodup_iff.mpr h.nodup) hHolds
  have hSame : p.clearFrames = k₀.pmm.clearFrames := by
    have hTotal' : p.totalFrames = k₀.pmm.totalFrames := by rw [hFreed'.fixed, hTotal]
    ext f
    rw [hFreed'.ready.consistent.mem_clearFrames, hReady.consistent.mem_clearFrames, hTotal',
      ← Bool.not_eq_true, ← Bool.not_eq_true, hFreed'.bits, hLeft, hPerm.mem_iff]
    have hOwn := h.own f
    rw [← Bool.not_eq_true] at hOwn
    tauto
  refine ⟨p, hFold, ?_⟩
  rw [pmmFreeFrames_eq hFreed'.ready.consistent, pmmFreeFrames_eq hReady.consistent, hSame]

/-- A new space, and the frame 2 taken for a page of it. -/
def takenFrameSpace : Kmem :=
  { (vmmCreateAddressSpace sixteenFrameMachine).2 with
    pmm := (pmmAllocPage (vmmCreateAddressSpace sixteenFrameMachine).2.pmm).2 }

/-- That page is mapped when the space is destroyed, and freed afterwards. -/
theorem destroy_frees_tables_one_page :
    ∃ k', vmmDestroyAddressSpace (vmmMapPage takenFrameSpace 4096 0x400000 0x2000 0).2 4096 =
      .ok k' ∧ Bitmap.isSet k'.pmm.bitmap 2 = true ∧
      ∃ p, [2].foldlM (fun p frame => pmmFreePage p (frame * pmmPageSize)) k'.pmm = .ok p ∧
        pmmFreeFrames p = 15 := by
  have hCreate : vmmCreateAddressSpace sixteenFrameMachine =
      (some 4096, (vmmCreateAddressSpace sixteenFrameMachine).2) := rfl
  have hTaken : CallerRun sixteenFrameMachine 4096 takenFrameSpace [2] :=
    (CallerRun.create hCreate).take rfl (by decide)
  obtain ⟨k', hDestroy, _, _, hPages, _, hFrees⟩ := destroy_frees_tables sixteenFrames_ready
    (hTaken.map 0 (by decide : 0x400000 < 2 ^ 47) (.inl List.mem_cons_self))
  obtain ⟨p, hFree, hCount⟩ := hFrees [2] (.refl _)
  exact ⟨k', hDestroy, hPages 2 ⟨0x400000, by decide, leafEntry 0x2000 0, by decide +kernel,
    by decide +kernel⟩, p, hFree, hCount.trans (by decide +kernel)⟩

end Kryos.Memory
