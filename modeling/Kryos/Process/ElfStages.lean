import Kryos.Memory.FrameOwnership
import Kryos.Process.Elf

/-! What the ELF loader is made of. Every stage of `elf_load_image` maps fresh
pages of the user half and stores into pages that are already mapped, so a
property that those two steps keep holds when the loader returns. -/
namespace Kryos.Process

open Word Memory LittleEndian

variable {k : Kmem} {page : Nat} {ph : Elf64Phdr}

/-- Flags that do not ask for a page that is both writable and executable. -/
def WriteOrExecute (flags : Nat) : Prop :=
  hasFlag flags vmmFlagWritable = true → hasFlag flags vmmFlagNoExecute = true

/-- A property of the kernel's memory that the two steps of the loader keep. -/
structure LoaderInvariant (root : Nat) (Inv : Kmem → Prop) : Prop where
  asInv : ∀ k, Inv k → AsInv k root
  fresh : ∀ k page flags, Inv k → page < 2 ^ 47 → WriteOrExecute flags →
    ∃ ok k', mapFreshPage k root page flags = .ok (ok, k') ∧ Inv k' ∧
      (ok = true → k'.leafOf root page ≠ none)
  store : ∀ k k' frame, Inv k → k.LeafFrame root frame → FrameWrite k k' frame →
    k'.cr3 = k.cr3 → Inv k'

/-! ### Stores into pages -/

theorem writeByte_frameWrite {k : Kmem} {addr frame : Nat} (hFrame : addr / pmmPageSize = frame)
    (value : UInt8) : FrameWrite k (writeByte k addr value) frame := by
  refine ⟨rfl, ?_⟩
  intro a ha
  apply Function.update_of_ne
  rintro rfl
  apply ha
  simp only [pmmPageSize] at hFrame ⊢
  omega

theorem copyIn_frameWrite {dst frame : Nat} (bytes : Nat → UInt8) (n : Nat)
    (hFrame : ∀ i < n, (dst + i) / pmmPageSize = frame) :
    FrameWrite k (copyIn k dst bytes n) frame := by
  induction n with
  | zero => exact FrameWrite.refl k frame
  | succ n ih =>
    exact (ih (fun i hi => hFrame i (by omega))).trans
      (writeByte_frameWrite (hFrame n (by omega)) _)

theorem copySegment_frameWrite {k : Kmem} {page frame : Nat} (img : ElfImage) (ph : Elf64Phdr) :
    FrameWrite k (copySegment img ph page (frame * pmmPageSize) k) frame := by
  unfold copySegment
  dsimp only
  generalize (if page < ph.vaddr then ph.vaddr - page else 0) = pageOffset
  split
  case isFalse => exact FrameWrite.refl k frame
  apply copyIn_frameWrite
  intro i hi
  have hInside : pageOffset + i < 0x1000 := by
    split at hi <;> omega
  simp only [pmmPageSize]
  omega

theorem copyIn_cr3 (k : Kmem) (dst : Nat) (bytes : Nat → UInt8) (n : Nat) :
    (copyIn k dst bytes n).cr3 = k.cr3 := by
  induction n with
  | zero => rfl
  | succ n ih => exact ih

theorem copySegment_cr3 (img : ElfImage) (ph : Elf64Phdr) (page vpage : Nat) (k : Kmem) :
    (copySegment img ph page vpage k).cr3 = k.cr3 := by
  unfold copySegment
  dsimp only
  generalize (if page < ph.vaddr then ph.vaddr - page else 0) = pageOffset
  split
  · exact copyIn_cr3 k _ _ _
  · rfl

theorem getPhys_leafFrame {root paddr : Nat} (h : AsInv k root) (hPage : page < 2 ^ 47)
    (hAligned : page % pmmPageSize = 0) (hPhys : vmmGetPhys k root page = some paddr) :
    ∃ frame, paddr = frame * pmmPageSize ∧ k.LeafFrame root frame := by
  rw [h.getPhys hPage, Option.map_eq_some_iff] at hPhys
  obtain ⟨e, hLeaf, rfl⟩ := hPhys
  have hMul : (e &&& pteFrameMask) / pmmPageSize * pmmPageSize = e &&& pteFrameMask :=
    Nat.div_mul_cancel (Nat.dvd_of_mod_eq_zero (isFrame_and_mask e).1)
  exact ⟨(e &&& pteFrameMask) / pmmPageSize, by rw [hAligned, hMul, Nat.add_zero],
    page, hPage, e, hLeaf, hMul.symm⟩

/-! ### Segments -/

namespace Elf64Phdr

variable {ph : Elf64Phdr} {size : Nat} (h : ph.check size = none)

include h

theorem check_bounds : ph.vaddr ≤ ph.segMemEnd ∧ ph.segMemEnd < 2 ^ 47 := by
  unfold check at h
  split at h
  · cases h
  dsimp only at h
  split at h
  · cases h
  split at h
  · cases h
  split at h
  · cases h
  omega

theorem startPage_eq : ph.startPage = ph.vaddr / 0x1000 * 0x1000 := by
  obtain ⟨hLow, hHigh⟩ := check_bounds h
  exact alignDown_eq (k := 12) (by omega) (by decide)

theorem endPage_eq : ph.endPage = (ph.segMemEnd + 0xFFF) / 0x1000 * 0x1000 := by
  obtain ⟨_, hHigh⟩ := check_bounds h
  have hRound := alignUp_eq ph.segMemEnd (by decide : 12 ≤ 64)
  rwa [show ph.segMemEnd + 2 ^ 12 - 1 = ph.segMemEnd + 0xFFF by omega,
    u64_of_lt (by omega)] at hRound

theorem startPage_aligned : ph.startPage % pmmPageSize = 0 := by
  rw [startPage_eq h]
  exact Nat.mul_mod_left _ _

theorem pages_user : ph.startPage + ph.pageCount * 0x1000 ≤ 2 ^ 47 := by
  obtain ⟨hLow, hHigh⟩ := check_bounds h
  have hStart := startPage_eq h
  have hEnd := endPage_eq h
  unfold pageCount
  omega

theorem pageCount_of_hasEntry {entry : Nat} (hEntry : ph.hasEntry entry = true) :
    0 < ph.pageCount := by
  unfold hasEntry at hEntry
  rw [Bool.and_eq_true, decide_eq_true_eq] at hEntry
  have hStart := startPage_eq h
  have hEnd := endPage_eq h
  unfold pageCount
  omega

/-- A segment that passes its checks is not both writable and executable. -/
theorem vmmFlags_writeOrExecute : WriteOrExecute ph.vmmFlags := by
  have hRwx : (hasFlag ph.flags pfW && hasFlag ph.flags pfX) = false := by
    unfold check at h
    split at h
    · cases h
    dsimp only at h
    split at h
    · cases h
    split at h
    · cases h
    split at h
    · cases h
    split at h
    · cases h
    · rename_i hNot
      exact Bool.not_eq_true _ ▸ hNot
  unfold WriteOrExecute vmmFlags
  cases hW : hasFlag ph.flags pfW <;> cases hX : hasFlag ph.flags pfX
  · decide
  · decide
  · decide
  · simp [hW, hX] at hRwx

end Elf64Phdr

/-! ### The stages -/

namespace LoaderInvariant

variable {root : Nat} {Inv : Kmem → Prop} (inv : LoaderInvariant root Inv)

include inv

theorem ensureMapped (h : Inv k) {flags : Nat} (hPage : page < 2 ^ 47)
    (hFlags : WriteOrExecute flags) :
    ∃ ok k', ensureMapped k root page flags = .ok (ok, k') ∧ Inv k' ∧
      (ok = true → k'.leafOf root page ≠ none) := by
  unfold Process.ensureMapped
  cases hPhys : vmmGetPhys k root page with
  | none => exact inv.fresh k page flags h hPage hFlags
  | some paddr =>
    refine ⟨true, k, rfl, h, fun _ => ?_⟩
    rw [(inv.asInv k h).getPhys hPage, Option.map_eq_some_iff] at hPhys
    obtain ⟨e, hLeaf, _⟩ := hPhys
    simp [hLeaf]

theorem loadPage (h : Inv k) (hPage : page < 2 ^ 47) (hAligned : page % pmmPageSize = 0)
    (img : ElfImage) (hFlags : WriteOrExecute ph.vmmFlags) :
    ∃ ok k', loadPage img ph root page k = .ok (ok, k') ∧ Inv k' := by
  obtain ⟨ok, k', hMapped, hInv, hLeaf⟩ := inv.ensureMapped h hPage hFlags
  unfold Process.loadPage
  rw [hMapped]
  cases ok with
  | false => exact ⟨false, k', rfl, hInv⟩
  | true =>
    have hPhys : vmmGetPhys k' root page ≠ none := by
      rw [(inv.asInv k' hInv).getPhys hPage, ne_eq, Option.map_eq_none_iff]
      exact hLeaf rfl
    obtain ⟨paddr, hPaddr⟩ := Option.ne_none_iff_exists'.mp hPhys
    obtain ⟨frame, rfl, hFrame⟩ := getPhys_leafFrame (inv.asInv k' hInv) hPage hAligned hPaddr
    dsimp only
    rw [hPaddr]
    exact ⟨true, _, rfl, inv.store k' _ frame hInv hFrame (copySegment_frameWrite img ph)
      (copySegment_cr3 img ph page _ k')⟩

theorem loadPages (img : ElfImage) (hFlags : WriteOrExecute ph.vmmFlags) (remaining : Nat)
    (h : Inv k) (hPages : page + remaining * 0x1000 ≤ 2 ^ 47) (hAligned : page % pmmPageSize = 0) :
    ∃ ok k', loadPages img ph root remaining page k = .ok (ok, k') ∧ Inv k' := by
  induction remaining generalizing page k with
  | zero => exact ⟨true, k, rfl, h⟩
  | succ remaining ih =>
    obtain ⟨ok, k₁, hPage, hInv⟩ := inv.loadPage h (by omega) hAligned img hFlags
    rw [Process.loadPages, hPage]
    cases ok with
    | false => exact ⟨false, k₁, rfl, hInv⟩
    | true =>
      have hNext : (page + 0x1000) % pmmPageSize = 0 := by
        simp only [pmmPageSize] at hAligned ⊢
        omega
      exact ih hInv (by omega) hNext

theorem mapStack (remaining : Nat) {page : Nat} {k : Kmem} (h : Inv k)
    (hPages : page + remaining * 0x1000 ≤ 2 ^ 47) :
    ∃ ok k', mapStack root remaining page k = .ok (ok, k') ∧ Inv k' := by
  induction remaining generalizing page k with
  | zero => exact ⟨true, k, rfl, h⟩
  | succ remaining ih =>
    obtain ⟨ok, k₁, hPage, hInv, _⟩ := inv.fresh k page
      (vmmFlagWritable ||| vmmFlagUser ||| vmmFlagNoExecute) h (by omega) (fun _ => by decide)
    rw [Process.mapStack, hPage]
    cases ok with
    | false => exact ⟨false, k₁, rfl, hInv⟩
    | true => exact @ih (page + 0x1000) _ hInv (by omega)

theorem loadSegments (img : ElfImage) (headers : List Nat) (entryFound : Bool) (h : Inv k) :
    ∃ result k', loadSegments img root headers entryFound k = .ok (result, k') ∧
      Inv k' := by
  induction headers generalizing entryFound k with
  | nil => exact ⟨.ok entryFound, k, rfl, h⟩
  | cons i rest ih =>
    unfold Process.loadSegments
    dsimp only
    split
    · exact ih entryFound h
    split
    · exact ⟨_, k, rfl, h⟩
    rename_i hCheck
    obtain ⟨ok, k₁, hPages, hInv⟩ := inv.loadPages img (Elf64Phdr.vmmFlags_writeOrExecute hCheck)
      _ h (Elf64Phdr.pages_user hCheck) (Elf64Phdr.startPage_aligned hCheck)
    rw [hPages]
    cases ok with
    | false => exact ⟨_, k₁, rfl, hInv⟩
    | true => exact ih _ hInv

/-- `write_user_stack_bytes` on user addresses stores into mapped pages only. -/
theorem writeUserStackBytes (bytes : List UInt8) {vaddr : Nat} {k : Kmem} (h : Inv k)
    (hUser : vaddr + bytes.length ≤ 2 ^ 47) : Inv (writeUserStackBytes root vaddr bytes k) := by
  induction bytes generalizing vaddr k with
  | nil => exact h
  | cons byte rest ih =>
    rw [List.length_cons] at hUser
    have hPage : alignDown vaddr 0x1000 = vaddr / 0x1000 * 0x1000 :=
      alignDown_eq (k := 12) (by omega) (by decide)
    unfold Process.writeUserStackBytes
    rw [u64_of_lt (by omega)]
    dsimp only
    cases hPhys : vmmGetPhys k root (alignDown vaddr 0x1000) with
    | none => exact ih h (by omega)
    | some paddr =>
      obtain ⟨frame, rfl, hFrame⟩ := getPhys_leafFrame (inv.asInv k h) (by omega)
        (by rw [hPage]; exact Nat.mul_mod_left _ _) hPhys
      have hInside : (frame * pmmPageSize + vaddr % 0x1000) / pmmPageSize = frame := by
        simp only [pmmPageSize]
        omega
      exact @ih (vaddr + 1) _
        (inv.store k _ frame h hFrame (writeByte_frameWrite hInside byte) rfl) (by omega)

theorem pushStrings (strings : List ArgString) {rsp : Nat} (h : Inv k) (hTop : rsp ≤ userStackTop)
    (hRoom : 65536 * strings.length ≤ rsp) :
    ∃ ptrs rsp' k', pushStrings root strings rsp k = (ptrs, rsp', k') ∧ Inv k' ∧
      rsp' ≤ rsp ∧ rsp ≤ rsp' + 65536 * strings.length ∧ ptrs.length = strings.length := by
  induction strings with
  | nil => exact ⟨[], rsp, k, rfl, h, Nat.le_refl rsp, Nat.le_add_right rsp _, rfl⟩
  | cons s rest ih =>
    simp only [List.length_cons, Nat.mul_succ] at hRoom ⊢
    simp only [userStackTop] at hTop
    obtain ⟨ptrs, rsp₁, k₁, hPush, hInv, hLow, hHigh, hLength⟩ := ih (by omega)
    have hShort : s.bytes.length < 65536 := s.short
    have hSub : sub64 rsp₁ (s.bytes.length + 1) = rsp₁ - (s.bytes.length + 1) :=
      sub64_of_le (by omega) (by omega)
    have hWritten := @writeUserStackBytes _ _ inv (s.bytes ++ [0])
      (rsp₁ - (s.bytes.length + 1)) _ hInv
      (by simp only [List.length_append, List.length_singleton]; omega)
    refine ⟨(rsp₁ - (s.bytes.length + 1)) :: ptrs, rsp₁ - (s.bytes.length + 1), _, ?_, hWritten,
      ?_, ?_, by rw [List.length_cons, hLength]⟩
    · rw [Process.pushStrings, hPush]
      dsimp only
      rw [hSub]
    · omega
    · clear hTop
      omega

theorem pushWords (words : List Nat) {rsp : Nat} {k : Kmem} (h : Inv k) (hTop : rsp ≤ userStackTop)
    (hRoom : 8 * words.length ≤ rsp) :
    ∃ rsp' k', pushWords root words rsp k = (rsp', k') ∧ Inv k' ∧
      rsp' + 8 * words.length = rsp := by
  induction words with
  | nil => exact ⟨rsp, k, rfl, h, by simp⟩
  | cons word rest ih =>
    simp only [List.length_cons] at hRoom ⊢
    obtain ⟨rsp₁, k₁, hPush, hInv, hRsp⟩ := ih (by omega)
    simp only [userStackTop] at hTop
    have hSub : sub64 rsp₁ 8 = rsp₁ - 8 := sub64_of_le (by omega) (by omega)
    have hWritten := @writeUserStackBytes _ _ inv (bytesOf word 8) (rsp₁ - 8) _ hInv
      (by simp only [bytesOf, List.length_map, List.length_range]; omega)
    exact ⟨_, _, by rw [Process.pushWords, hPush]; dsimp only; rw [hSub], hWritten, by omega⟩

theorem injectArguments (argv envp : List ArgString) (h : Inv k) :
    ∃ rsp k', injectArguments root argv envp k = (rsp, k') ∧ Inv k' := by
  have hEnvp : (envp.take 32).length ≤ 32 := List.length_take_le _ _
  have hArgv : (argv.take 32).length ≤ 32 := List.length_take_le _ _
  unfold Process.injectArguments
  generalize envp.take 32 = envp at *
  generalize argv.take 32 = argv at *
  have hTop : userStackTop = 0x00007FFFFFFFF000 := rfl
  obtain ⟨envpPtrs, rsp₁, k₁, hPush₁, hInv₁, hLow₁, hHigh₁, hLength₁⟩ :=
    inv.pushStrings envp h (Nat.le_refl userStackTop) (by omega)
  obtain ⟨argvPtrs, rsp₂, k₂, hPush₂, hInv₂, hLow₂, hHigh₂, hLength₂⟩ :=
    inv.pushStrings argv hInv₁ hLow₁ (by omega)
  have hAlign : alignDown rsp₂ 16 = rsp₂ / 16 * 16 := alignDown_eq (k := 4) (by omega) (by decide)
  obtain ⟨rsp₃, k₃, hPush₃, hInv₃, hRsp₃⟩ := @pushWords _ _ inv (envpPtrs ++ [0])
    (alignDown rsp₂ 16) _ hInv₂ (by omega)
    (by simp only [List.length_append, List.length_singleton]; omega)
  rw [List.length_append, List.length_singleton] at hRsp₃
  obtain ⟨rsp₄, k₄, hPush₄, hInv₄, hRsp₄⟩ := @pushWords _ _ inv (argvPtrs ++ [0])
    rsp₃ _ hInv₃ (by omega) (by simp only [List.length_append, List.length_singleton]; omega)
  rw [List.length_append, List.length_singleton] at hRsp₄
  obtain ⟨rsp₅, k₅, hPush₅, hInv₅, _⟩ := @pushWords _ _ inv [argv.length]
    rsp₄ _ hInv₄ (by omega) (by simp only [List.length_singleton]; omega)
  refine ⟨rsp₅, k₅, ?_, hInv₅⟩
  dsimp only
  rw [hPush₁]
  dsimp only
  rw [hPush₂]
  dsimp only
  rw [hPush₃]
  dsimp only
  rw [hPush₄]
  dsimp only
  rw [hPush₅]

theorem tail (img : ElfImage) (argv envp : List ArgString) {k₁ : Kmem}
    {segments : Except ElfLoadError Bool} (hHeader : checkElfHeader img = none)
    (hSegments : Process.loadSegments img root (List.range img.ehdr.phnum) false k =
      .ok (segments, k₁)) (h : Inv k₁) :
    ∃ result k', elfLoadImage k root img argv envp = .ok (result, k') ∧ Inv k' := by
  unfold elfLoadImage
  rw [hHeader, hSegments]
  obtain error | entryFound := segments
  · exact ⟨_, k₁, rfl, h⟩
  dsimp only
  split
  · exact ⟨_, k₁, rfl, h⟩
  obtain ⟨ok, k₂, hStack, hInv⟩ := @mapStack _ _ inv userStackPages
    (userStackTop - userStackPages * 0x1000) _ h (by decide)
  rw [hStack]
  cases ok with
  | false => exact ⟨_, k₂, rfl, hInv⟩
  | true =>
    obtain ⟨rsp, k₃, hInject, hInv'⟩ := inv.injectArguments argv envp hInv
    refine ⟨.ok (img.ehdr.entry, rsp), k₃, ?_, hInv'⟩
    dsimp only
    rw [hInject]

/-- `elf_load_image` never panics and keeps the invariant, whether it succeeds
or not. -/
theorem elfLoadImage (img : ElfImage) (argv envp : List ArgString) (h : Inv k) :
    ∃ result k', elfLoadImage k root img argv envp = .ok (result, k') ∧ Inv k' := by
  cases hHeader : checkElfHeader img with
  | some error => exact ⟨.error error, k, by rw [Process.elfLoadImage, hHeader], h⟩
  | none =>
    obtain ⟨segments, k₁, hSegments, hInv⟩ :=
      inv.loadSegments img (List.range img.ehdr.phnum) false h
    exact inv.tail img argv envp hHeader hSegments hInv

end LoaderInvariant

end Kryos.Process
