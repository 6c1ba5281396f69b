import Kryos.Process.UserPages
import Kryos.Syscall.Brk

/-! What `sys_brk` does to the pages of a process. As long as its arguments can
be rounded, both loops stay in the user half, where each of their rounds is a
step on the pages of the process. -/
namespace Kryos.Syscall

open Word Memory Process

/-- The flags of the pages of the heap. -/
def brkFlags : Nat := vmmFlagUser ||| vmmFlagWritable ||| vmmFlagNoExecute

/-- A property of the kernel's memory that the rounds of the two loops keep. -/
structure BrkInvariant (root : Nat) (Inv : Kmem → Prop) : Prop where
  fresh : ∀ k page, Inv k → page ≤ 2 ^ 47 →
    ∃ ok k', mapFreshPage k root page brkFlags = .ok (ok, k') ∧ Inv k' ∧
      (ok = true → page < 2 ^ 47)
  free : ∀ k page phys, Inv k → page < 2 ^ 47 → page % pmmPageSize = 0 →
    vmmGetPhys k root page = some phys →
    ∃ p', pmmFreePage (vmmUnmapPage k root page).2.pmm phys = .ok p' ∧
      Inv { (vmmUnmapPage k root page).2 with pmm := p' }

theorem growLoop_round {k k' : Kmem} {pml4 endPage fuel va : Nat} {ok : Bool} (hVa : va < endPage)
    (hRun : mapFreshPage k pml4 va brkFlags = .ok (ok, k')) :
    growLoop pml4 endPage (fuel + 1) va k =
      if ok then
        (.map va :: (growLoop pml4 endPage fuel (u64 (va + 0x1000)) k').1,
          (growLoop pml4 endPage fuel (u64 (va + 0x1000)) k').2)
      else ([], .refused, k') := by
  unfold mapFreshPage brkFlags at hRun
  rw [growLoop, if_pos hVa]
  generalize pmmAllocPage k.pmm = allocated at *
  obtain ⟨phys, pmm⟩ := allocated
  dsimp only at hRun ⊢
  split at hRun
  · rename_i hZero
    cases hRun
    rw [if_pos hZero]
    rfl
  · rename_i hZero
    rw [if_neg hZero]
    generalize vmmMapPage { k with pmm := pmm } pml4 va phys
      (vmmFlagUser ||| vmmFlagWritable ||| vmmFlagNoExecute) = result at *
    obtain ⟨_ | _, k₁⟩ := result <;> dsimp only at hRun ⊢
    · cases hFree : pmmFreePage k₁.pmm phys with
      | error reason =>
        rw [hFree] at hRun
        cases hRun
      | ok freed =>
        rw [hFree] at hRun
        cases hRun
        rfl
    · cases hRun
      rfl

section Loops

variable {root : Nat} {Inv : Kmem → Prop} (inv : BrkInvariant root Inv)

include inv

theorem BrkInvariant.growLoop (endPage fuel : Nat) {va : Nat} {k : Kmem} (h : Inv k)
    (hVa : va ≤ 2 ^ 47) (hAligned : va % 0x1000 = 0) :
    Inv (growLoop root endPage fuel va k).2.2 ∧
    ∀ reason, (growLoop root endPage fuel va k).2.1 ≠ .panicked reason := by
  induction fuel generalizing va k with
  | zero =>
    refine ⟨h, fun reason => ?_⟩
    rw [Syscall.growLoop]
    dsimp only
    split <;> simp
  | succ fuel ih =>
    by_cases hEnd : va < endPage
    · obtain ⟨ok, k', hRun, hInv, hUser⟩ := inv.fresh k va h hVa
      rw [growLoop_round hEnd hRun]
      cases ok with
      | false => exact ⟨hInv, by simp⟩
      | true =>
        have hLt := hUser rfl
        rw [if_pos rfl, u64_of_lt (by omega)]
        exact ih hInv (by omega) (by omega)
    · rw [Syscall.growLoop, if_neg hEnd]
      exact ⟨h, by simp⟩

theorem BrkInvariant.shrinkLoop {endPage : Nat} (hEnd : endPage ≤ 2 ^ 47) (fuel : Nat) {va : Nat}
    {k : Kmem} (h : Inv k) (hAligned : va % 0x1000 = 0) :
    Inv (shrinkLoop root endPage fuel va k).2.2 ∧
    ∀ reason, (shrinkLoop root endPage fuel va k).2.1 ≠ .panicked reason := by
  induction fuel generalizing va k with
  | zero =>
    refine ⟨h, fun reason => ?_⟩
    rw [Syscall.shrinkLoop]
    dsimp only
    split <;> simp
  | succ fuel ih =>
    unfold Syscall.shrinkLoop
    split
    case isFalse => exact ⟨h, by simp⟩
    rename_i hVa
    rw [u64_of_lt (by omega)]
    split
    · exact ih h (by omega)
    · rename_i phys hPhys
      obtain ⟨p', hFree, hInv⟩ := inv.free k va phys h (by omega) hAligned hPhys
      dsimp only
      rw [hFree]
      exact ih hInv (by omega)

theorem BrkInvariant.sysBrk {p : BrkProcess} (hRoot : p.pml4 = root) (h : Inv p.kmem)
    (hUser : p.InUser) {newBrk : Nat} (hArg : newBrk ≤ 2 ^ 64 - 4096) :
    Inv (sysBrk p newBrk).process.kmem ∧
    ∀ reason, (sysBrk p newBrk).ending ≠ .panicked reason := by
  obtain ⟨_, hHigh⟩ := hUser
  have hCurrent := pageAlignUp_of_le (x := p.brkCurrent) (by omega)
  unfold Syscall.sysBrk
  rw [hRoot]
  split
  · exact ⟨h, by simp⟩
  split
  · exact ⟨h, by simp⟩
  have hLoop : ∀ result : List PageEvent × LoopEnd × Kmem,
      result = (if newBrk > p.brkCurrent then
          Syscall.growLoop root (pageAlignUp newBrk) brkFuel (pageAlignUp p.brkCurrent) p.kmem
        else if newBrk < p.brkCurrent then
          Syscall.shrinkLoop root (pageAlignUp p.brkCurrent) brkFuel (pageAlignUp newBrk) p.kmem
        else ([], .completed, p.kmem)) →
      Inv result.2.2 ∧ ∀ reason, result.2.1 ≠ .panicked reason := by
    rintro result rfl
    split
    · exact inv.growLoop _ _ h (by omega) (pageAlignUp_mod _)
    split
    · exact inv.shrinkLoop (by omega) _ h (pageAlignUp_mod _)
    · exact ⟨h, by simp⟩
  obtain ⟨hInv, hNoPanic⟩ := hLoop _ rfl
  split
  rename_i events ending k hResult
  rw [hResult] at hInv hNoPanic
  cases ending with
  | completed => exact ⟨hInv, by simp⟩
  | refused => exact ⟨hInv, by simp⟩
  | panicked reason => exact absurd rfl (hNoPanic reason)
  | unfinished => exact ⟨hInv, by simp⟩

end Loops

end Kryos.Syscall
