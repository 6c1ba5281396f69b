import Kryos.Syscall.UserCopy

/-! The gate for user pointers. It tests one address on each page; what it says
is about every byte of the range. -/
namespace Kryos.Syscall

open Word Memory Radix

/-- The entries that a walk for `va` passes: it ends at the first large page. -/
def walkEntries (k : Kmem) (root va : Nat) : List Nat :=
  let pml4e := k.mem (slot root (pml4Index va))
  let pdpte := k.mem (slot (pml4e &&& pteFrameMask) (pdptIndex va))
  if hasFlag pdpte pdePs then [pml4e, pdpte]
  else
    let pde := k.mem (slot (pdpte &&& pteFrameMask) (pdIndex va))
    if hasFlag pde pdePs then [pml4e, pdpte, pde]
    else [pml4e, pdpte, pde, k.mem (slot (pde &&& pteFrameMask) (ptIndex va))]

/-- The byte is mapped present and with the USER bit at every level of its walk. -/
def UserMapped (k : Kmem) (root va : Nat) : Prop :=
  ∀ e ∈ walkEntries k root va, hasFlag e ptePresent ∧ hasFlag e pteUser

/-- The byte is mapped for writing too. -/
def UserMappedWritable (k : Kmem) (root va : Nat) : Prop :=
  ∀ e ∈ walkEntries k root va, hasFlag e ptePresent ∧ hasFlag e pteUser ∧ hasFlag e pteWritable

/-- The page loop of `user_range_readable` and `user_range_writable`, with the 64-bit
address that it counts up. `none` says that the fuel is used up. -/
def pageLoop (page : Nat → Bool) (stop : Nat) : Nat → Nat → Option Bool
  | 0, _ => none
  | fuel + 1, va =>
    if va < stop then
      if !page va then some false else pageLoop page stop fuel (u64 (va + 0x1000))
    else some true

/-- The two functions with their loop. -/
def userRangeLoop (page : Nat → Bool) (addr len fuel : Nat) : Option Bool :=
  if len == 0 then some true
  else
    let stop := u64 (addr + len)
    if stop < addr then some false
    else if stop > 0x0000800000000000 then some false
    else pageLoop page stop fuel (alignDown addr 0x1000)

section Loop

variable {page : Nat → Bool} {stop : Nat}

/-- The loop ends after the pages of the range, and it answers whether all of them pass. -/
theorem pageLoop_eq (hStop : stop ≤ 2 ^ 47) {rounds va : Nat} (hPages : stop ≤ va + rounds * 0x1000)
    (hLast : va + rounds * 0x1000 < stop + 0x1000) {fuel : Nat} (hFuel : rounds < fuel) :
    pageLoop page stop fuel va =
      some ((List.range rounds).all fun i => page (va + i * 0x1000)) := by
  induction rounds generalizing va fuel with
  | zero =>
    obtain ⟨fuel, rfl⟩ := Nat.exists_eq_add_one.mpr hFuel
    rw [pageLoop, if_neg (by omega)]
    rfl
  | succ rounds ih =>
    obtain ⟨fuel, rfl⟩ := Nat.exists_eq_add_one.mpr (Nat.zero_lt_of_lt hFuel)
    rw [pageLoop, if_pos (by omega), List.range_succ_eq_map, List.all_cons, List.all_map]
    cases hFirst : page va with
    | false => simp
    | true =>
      have hRest := @ih (va + 0x1000) (by omega) (by omega) fuel (by omega)
      rw [u64_of_lt (by omega), hRest]
      simp only [Bool.not_true, Bool.false_eq_true, if_false, Bool.true_and, Option.some.injEq]
      congr 1
      funext i
      congr 1
      omega

/-- The loop ends after at most as many rounds as there are pages in the user half, and
`userRange` is what the functions return. -/
theorem userRangeLoop_eq (page : Nat → Bool) {addr len : Nat} (hAddr : addr < 2 ^ 64) {fuel : Nat}
    (hFuel : 2 ^ 35 < fuel) :
    userRangeLoop page addr len fuel = some (userRange page addr len) := by
  have hStart : alignDown addr 0x1000 = addr - addr % 0x1000 := by
    have hAlign := @alignDown_eq addr 12 hAddr (by decide)
    rw [show (0x1000 : Nat) = 2 ^ 12 from rfl, hAlign]
    omega
  rw [userRangeLoop, userRange]
  by_cases hEmpty : (len == 0) = true
  · rw [if_pos hEmpty, if_pos hEmpty]
  rw [if_neg hEmpty, if_neg hEmpty]
  generalize u64 (addr + len) = stop
  by_cases hWrap : stop < addr
  · rw [if_pos hWrap, if_pos hWrap]
  rw [if_neg hWrap, if_neg hWrap]
  by_cases hHigh : stop > 0x0000800000000000
  · rw [if_pos hHigh, if_pos hHigh]
  rw [if_neg hHigh, if_neg hHigh, hStart]
  exact pageLoop_eq (by omega) (by omega) (by omega) (by omega)

theorem userRange_iff (hPage : ∀ va < 2 ^ 47, page (va - va % 0x1000) = page va) {addr len : Nat}
    (hAddr : addr < 2 ^ 64) (hLen : len < 2 ^ 64) (hSome : 0 < len) :
    userRange page addr len = true ↔
      addr + len < 2 ^ 64 ∧ addr + len ≤ 2 ^ 47 ∧ ∀ va, addr ≤ va → va < addr + len →
        page va = true := by
  have hNonzero : ¬(len == 0) = true := by
    rw [beq_iff_eq]
    omega
  rw [userRange, if_neg hNonzero]
  by_cases hWraps : 2 ^ 64 ≤ addr + len
  · have hStop : u64 (addr + len) < addr := by
      rw [u64]
      omega
    rw [if_pos hStop]
    exact iff_of_false Bool.false_ne_true (fun h => Nat.not_lt.mpr hWraps h.1)
  rw [u64_of_lt (by omega), if_neg (by omega)]
  by_cases hHigh : addr + len > 0x0000800000000000
  · rw [if_pos hHigh]
    exact iff_of_false Bool.false_ne_true (fun h => by omega)
  rw [if_neg hHigh, List.all_eq_true]
  constructor
  · intro h
    refine ⟨by omega, by omega, fun va hFrom hTo => ?_⟩
    -- the page of the byte is tested in its round
    have hRound := h (va / 0x1000 - addr / 0x1000) (List.mem_range.mpr (by omega))
    rw [← hPage va (by omega)]
    rw [← hRound]
    congr 1
    omega
  · rintro ⟨_, _, h⟩ i hi
    rw [List.mem_range] at hi
    -- a page of the range has a byte of the range
    have hByte := h (max addr (addr - addr % 0x1000 + i * 0x1000)) (by omega) (by omega)
    rw [← hPage _ (by omega)] at hByte
    rw [← hByte]
    congr 1
    omega

end Loop

section Walk

variable {k : Kmem} {root va : Nat}

theorem indices_page (va : Nat) :
    pml4Index (va - va % 0x1000) = pml4Index va ∧ pdptIndex (va - va % 0x1000) = pdptIndex va ∧
      pdIndex (va - va % 0x1000) = pdIndex va ∧ ptIndex (va - va % 0x1000) = ptIndex va := by
  simp only [pml4Index_eq, pdptIndex_eq, pdIndex_eq, ptIndex_eq]
  omega

theorem userWalk_page (required : Nat → Bool) (k : Kmem) (root : Nat) {va : Nat}
    (hva : va < 2 ^ 47) :
    userWalk required k root (va - va % 0x1000) = userWalk required k root va := by
  obtain ⟨hPml4, hPdpt, hPd, hPt⟩ := indices_page va
  rw [userWalk, userWalk, isCanonical_of_lower hva, isCanonical_of_lower (by omega), hPml4, hPdpt,
    hPd, hPt]

theorem userWalk_iff (required : Nat → Bool) (hva : va < 2 ^ 47) :
    userWalk required k root va = true ↔ ∀ e ∈ walkEntries k root va, required e = true := by
  rw [userWalk, isCanonical_of_lower hva, walkEntries]
  dsimp only
  generalize k.mem (slot root (pml4Index va)) = pml4e
  generalize k.mem (slot (pml4e &&& pteFrameMask) (pdptIndex va)) = pdpte
  generalize k.mem (slot (pdpte &&& pteFrameMask) (pdIndex va)) = pde
  cases h4 : required pml4e <;> cases h3 : required pdpte <;> cases h2 : required pde <;>
    cases hGiant : hasFlag pdpte pdePs <;> cases hLarge : hasFlag pde pdePs <;> simp [h4, h3, h2]

theorem vmmIsUserReadable_iff (hva : va < 2 ^ 47) :
    vmmIsUserReadable k root va = true ↔ UserMapped k root va := by
  simp only [vmmIsUserReadable, userWalk_iff _ hva, UserMapped, Bool.and_eq_true]

theorem vmmIsUserWritable_iff (hva : va < 2 ^ 47) :
    vmmIsUserWritable k root va = true ↔ UserMappedWritable k root va := by
  simp only [vmmIsUserWritable, userWalk_iff _ hva, UserMappedWritable, Bool.and_eq_true, and_assoc]

/-- What a passed gate says of every byte, for a test of pages and its meaning. -/
theorem userRange_bytes {required : Nat → Bool} {Mapped : Nat → Prop}
    (hMapped : ∀ va < 2 ^ 47, userWalk required k root va = true ↔ Mapped va) {addr len : Nat}
    (hAddr : addr < 2 ^ 64) (hLen : len < 2 ^ 64) (hSome : 0 < len) :
    userRange (userWalk required k root) addr len = true ↔
      addr + len < 2 ^ 64 ∧ addr + len ≤ 2 ^ 47 ∧ ∀ va, addr ≤ va →
        va < addr + len → Mapped va := by
  rw [userRange_iff (fun va hva => userWalk_page required k root hva) hAddr hLen hSome]
  refine and_congr_right fun _ => and_congr_right fun hUser => ?_
  exact forall_congr' fun va => forall_congr' fun _ => forall_congr' fun hTo =>
    hMapped va (by omega)

/-- The gate is exact: the range does not wrap, lies in the user half, and every byte is
mapped as asked for. Its page loop ends for all inputs with that answer. -/
theorem userRange_exact (k : Kmem) (root : Nat) {addr len : Nat} (hAddr : addr < 2 ^ 64)
    (hLen : len < 2 ^ 64) (hSome : 0 < len) :
    (userRangeReadable k root addr len = true ↔ addr + len < 2 ^ 64 ∧ addr + len ≤ 2 ^ 47 ∧
      ∀ va, addr ≤ va → va < addr + len → UserMapped k root va) ∧
    (userRangeWritable k root addr len = true ↔ addr + len < 2 ^ 64 ∧ addr + len ≤ 2 ^ 47 ∧
      ∀ va, addr ≤ va → va < addr + len → UserMappedWritable k root va) ∧
    ∀ fuel, 2 ^ 35 < fuel →
      userRangeLoop (vmmIsUserReadable k root) addr len fuel =
        some (userRangeReadable k root addr len) ∧
      userRangeLoop (vmmIsUserWritable k root) addr len fuel =
        some (userRangeWritable k root addr len) := by
  refine ⟨?_, ?_, fun fuel hFuel => ⟨?_, ?_⟩⟩
  · exact userRange_bytes (fun _ hva => vmmIsUserReadable_iff hva) hAddr hLen hSome
  · exact userRange_bytes (fun _ hva => vmmIsUserWritable_iff hva) hAddr hLen hSome
  · exact userRangeLoop_eq _ hAddr hFuel
  · exact userRangeLoop_eq _ hAddr hFuel

/-- A machine whose words are all entries for the table at address zero, present and open
to the user. -/
def looseMachine : Kmem := ⟨⟨fun _ => 0, 0, 0, 0, 0, 0⟩, fun _ => 7, 0⟩

/-- Two bytes on two pages of it may be read. -/
theorem userRange_exact_two_pages : userRangeReadable looseMachine 0 0x1FFF 2 = true := by
  refine (userRange_exact looseMachine 0 (by decide) (by decide) (by decide)).1.mpr
    ⟨by decide, by decide, fun va _ _ e he => ?_⟩
  have hNormal : hasFlag 7 pdePs = false := by decide
  have hEntry : e = 7 := by simpa [walkEntries, looseMachine, hNormal] using he
  rw [hEntry]
  decide

end Walk

end Kryos.Syscall
