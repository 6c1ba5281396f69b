import Kryos.Process.ElfSegments

/-! The initial stack. If the argument block fits the stack, the startup code of
the C library finds in it what the loader was given; if it does not fit, the
loader still reports success, and the lower part of the block is lost or lands
on a page of a segment. -/
namespace Kryos.Process

open Word Memory LittleEndian

variable {i j va word : Nat} {strings : List ArgString} {s : ArgString} {byte : UInt8} {k' : Kmem}

/-! ### Reading the block -/

/-- The word that user code loads, if all its bytes are mapped. -/
def userWord (k : Kmem) (root va : Nat) : Option Nat :=
  if (List.range 8).all fun i => (userByte k root (va + i)).isSome then
    some (readLe (fun a => (userByte k root a).getD 0) va 8)
  else none

/-- A NUL-terminated copy of a string. -/
def UserText (k : Kmem) (root va : Nat) (s : ArgString) : Prop :=
  ∀ i byte, (s.bytes ++ [0])[i]? = some byte → userByte k root (va + i) = some byte

/-- The registers with which `_start` calls `main`. -/
structure StartRegisters where
  rdi : Nat
  rsi : Nat
  rdx : Nat

/-- What `_start` makes of the initial stack pointer. -/
def startRegisters (k : Kmem) (root rsp : Nat) : StartRegisters where
  rdi := (userWord k root rsp).getD 0
  rsi := u64 (rsp + 8)
  rdx := u64 (rsp + 16 + 8 * (userWord k root rsp).getD 0)

/-! ### Positions in the block -/

theorem wordBytes_getElem? (words : List Nat) (j : Nat) (hi : i < 8) :
    (wordBytes words)[8 * j + i]? = words[j]?.map (byteOf · i) := by
  induction words generalizing j with
  | nil => simp [wordBytes]
  | cons w rest ih =>
    have hBytes : (bytesOf w 8).length = 8 := by simp [bytesOf]
    rw [show wordBytes (w :: rest) = bytesOf w 8 ++ wordBytes rest from rfl]
    cases j with
    | zero =>
      rw [List.getElem?_append_left (by omega)]
      simp [bytesOf, hi]
    | succ j =>
      rw [List.getElem?_append_right (by omega), hBytes,
        show 8 * (j + 1) + i - 8 = 8 * j + i by omega, ih, List.getElem?_cons_succ]

theorem pointersFrom_getElem? (base : Nat) (hi : i < strings.length) :
    (pointersFrom base strings)[i]? = some (base + (textOf (strings.take i)).length) := by
  induction strings generalizing base i with
  | nil => exact absurd hi (by simp)
  | cons s rest ih =>
    cases i with
    | zero => simp [pointersFrom, textOf]
    | succ i =>
      rw [pointersFrom, List.getElem?_cons_succ, ih _ (Nat.lt_of_succ_lt_succ hi),
        List.take_succ_cons, textOf_cons]
      simp only [List.length_append, List.length_singleton]
      congr 1
      omega

theorem textOf_getElem? (hs : strings[i]? = some s) (hByte : (s.bytes ++ [0])[j]? = some byte) :
    (textOf strings)[(textOf (strings.take i)).length + j]? = some byte := by
  induction strings generalizing i with
  | nil => simp at hs
  | cons first rest ih =>
    cases i with
    | zero =>
      obtain rfl : first = s := Option.some.inj hs
      obtain ⟨hj, _⟩ := List.getElem?_eq_some_iff.mp hByte
      rw [List.take_zero, textOf_cons, show (textOf []).length + j = j from Nat.zero_add j,
        List.getElem?_append_left hj]
      exact hByte
    | succ i =>
      rw [List.take_succ_cons, textOf_cons, textOf_cons, List.length_append, Nat.add_assoc,
        List.getElem?_append_right (Nat.le_add_right _ _), Nat.add_sub_cancel_left]
      exact ih hs

theorem textOf_append (first second : List ArgString) :
    textOf (first ++ second) = textOf first ++ textOf second := List.flatMap_append

theorem textOf_take_succ (hs : strings[i]? = some s) :
    (textOf (strings.take (i + 1))).length =
      (textOf (strings.take i)).length + (s.bytes.length + 1) := by
  rw [List.take_add_one, hs, Option.toList_some, textOf_append, List.length_append]
  simp [textOf]

theorem textOf_take_le (strings : List ArgString) (h : i ≤ j) :
    (textOf (strings.take i)).length ≤ (textOf (strings.take j)).length := by
  have hSplit : strings.take i ++ (strings.take j).drop i = strings.take j := by
    rw [← Nat.min_eq_left h, ← List.take_take, Nat.min_eq_left h, List.take_append_drop]
  rw [← hSplit, textOf_append, List.length_append]
  exact Nat.le_add_right _ _

theorem textOf_take_le_all (strings : List ArgString) (i : Nat) :
    (textOf (strings.take i)).length ≤ (textOf strings).length := by
  by_cases hi : i ≤ strings.length
  · exact (textOf_take_le strings hi).trans_eq (by rw [List.take_length])
  · rw [List.take_of_length_le (by omega)]

/-- Two ranges, as addresses and lengths, without a common byte. -/
def Apart (a b : Nat × Nat) : Prop := a.1 + a.2 ≤ b.1 ∨ b.1 + b.2 ≤ a.1

/-- The strings of a text at `base`, found through their pointers, lie in the text and apart. -/
theorem strings_apart {base : Nat} {strings : List ArgString} {ptr : Nat → Nat}
    (hPtr : ∀ i < strings.length, ptr i = base + (textOf (strings.take i)).length) :
    (strings.mapIdx fun i s => (ptr i, s.bytes.length + 1)).Pairwise Apart ∧
    ∀ piece ∈ strings.mapIdx fun i s => (ptr i, s.bytes.length + 1),
      base ≤ piece.1 ∧ piece.1 + piece.2 ≤ base + (textOf strings).length := by
  constructor
  · rw [List.pairwise_iff_getElem]
    intro i j hi hj hOrder
    rw [List.length_mapIdx] at hi hj
    have hNext := textOf_take_succ (List.getElem?_eq_getElem hi)
    have hMono := textOf_take_le strings (show i + 1 ≤ j from hOrder)
    left
    simp only [List.getElem_mapIdx, hPtr i hi, hPtr j hj]
    omega
  · intro piece hPiece
    obtain ⟨i, hi, rfl⟩ := List.mem_mapIdx.mp hPiece
    have hNext := textOf_take_succ (List.getElem?_eq_getElem hi)
    have hMono := textOf_take_le_all strings (i + 1)
    simp only [hPtr i hi]
    omega

/-! ### The block in memory -/

section Block

variable {argv envp : List ArgString} {m : Sparse.Memory Access}

section

variable (hCells : ∀ va, blockBase argv envp ≤ va → va < userStackTop → (m va).isSome = true)
  (hArgv : argv.length ≤ 32) (hEnvp : envp.length ≤ 32)

include hCells hArgv hEnvp

theorem blockOn_word (hByte : (wordBytes (blockWords argv envp))[i]? = some byte) :
    (blockOn argv envp m).bytes (blockBase argv envp + i) = some byte := by
  obtain ⟨hEnvpBase, hArgvBase, hWords, _⟩ := layout_bounds hArgv hEnvp
  obtain ⟨hi, _⟩ := List.getElem?_eq_some_iff.mp hByte
  rw [wordBytes_length, blockWords_length] at hi
  apply Sparse.Memory.putList_bytes hByte
  rw [Sparse.Memory.putList_isSome]
  exact hCells _ (by omega) (by omega)

theorem blockOn_text (hByte : (textOf argv ++ textOf envp)[i]? = some byte) :
    (blockOn argv envp m).bytes (argvBase argv envp + i) = some byte := by
  obtain ⟨hEnvpBase, hArgvBase, hWords, _⟩ := layout_bounds hArgv hEnvp
  obtain ⟨hi, _⟩ := List.getElem?_eq_some_iff.mp hByte
  rw [List.length_append] at hi
  rw [Sparse.Memory.bytes, blockOn, Sparse.Memory.putList_outside]
  · exact Sparse.Memory.putList_bytes hByte (hCells _ (by omega) (by omega))
  · rw [wordBytes_length, blockWords_length]
    omega

end

theorem blockWords_getElem? (argv envp : List ArgString) :
    (blockWords argv envp)[0]? = some argv.length ∧
    (∀ i < argv.length, (blockWords argv envp)[1 + i]? =
      some (argvBase argv envp + (textOf (argv.take i)).length)) ∧
    (blockWords argv envp)[1 + argv.length]? = some 0 ∧
    (∀ i < envp.length, (blockWords argv envp)[2 + argv.length + i]? =
      some (envpBase envp + (textOf (envp.take i)).length)) ∧
    (blockWords argv envp)[2 + argv.length + envp.length]? = some 0 := by
  have hFirst := pointersFrom_length (argvBase argv envp) argv
  have hSecond := pointersFrom_length (envpBase envp) envp
  unfold blockWords
  refine ⟨rfl, fun i hi => ?_, ?_, fun i hi => ?_, ?_⟩
  · rw [List.getElem?_append_right (by simp), List.length_singleton, Nat.add_sub_cancel_left,
      List.getElem?_append_left (by rw [List.length_append, List.length_singleton]; omega),
      List.getElem?_append_left (by omega), pointersFrom_getElem? _ hi]
  · rw [List.getElem?_append_right (by simp), List.length_singleton, Nat.add_sub_cancel_left,
      List.getElem?_append_left (by rw [List.length_append, List.length_singleton]; omega),
      List.getElem?_append_right (by omega), hFirst, Nat.sub_self]
    rfl
  · rw [List.getElem?_append_right (by rw [List.length_singleton]; omega), List.length_singleton,
      List.getElem?_append_right (by rw [List.length_append, List.length_singleton]; omega),
      List.length_append, List.length_singleton, hFirst,
      show 2 + argv.length + i - 1 - (argv.length + 1) = i by omega,
      List.getElem?_append_left (by omega), pointersFrom_getElem? _ hi]
  · rw [List.getElem?_append_right (by rw [List.length_singleton]; omega), List.length_singleton,
      List.getElem?_append_right (by rw [List.length_append, List.length_singleton]; omega),
      List.length_append, List.length_singleton, hFirst,
      show 2 + argv.length + envp.length - 1 - (argv.length + 1) = envp.length by omega,
      List.getElem?_append_right (by omega), hSecond, Nat.sub_self]
    rfl

end Block

/-! ### Decoding -/

section Decode

variable {k : Kmem} {root : Nat}

theorem userWord_of_bytes (hWord : word < 2 ^ 64)
    (h : ∀ i < 8, userByte k root (va + i) = some (byteOf word i)) :
    userWord k root va = some word := by
  have hAll : ((List.range 8).all fun i => (userByte k root (va + i)).isSome) = true := by
    rw [List.all_eq_true]
    intro i hi
    rw [h i (List.mem_range.mp hi)]
    rfl
  have hRead : readLe (fun a => (userByte k root a).getD 0) va 8 = word % 256 ^ 8 := by
    apply readLe_of_bytes
    intro i hi
    rw [h i hi]
    rfl
  rw [userWord, if_pos hAll, hRead, Nat.mod_eq_of_lt (by omega)]

/-- The address and the length of every word and string of the block, the strings where the
words point. -/
def stackPieces (k : Kmem) (root rsp : Nat) (argv envp : List ArgString) : List (Nat × Nat) :=
  (List.range (argv.length + envp.length + 3)).map (fun j => (rsp + 8 * j, 8)) ++
    (argv.mapIdx (fun i s =>
      ((userWord k root ((startRegisters k root rsp).rsi + 8 * i)).getD 0, s.bytes.length + 1)) ++
    envp.mapIdx (fun i s =>
      ((userWord k root ((startRegisters k root rsp).rdx + 8 * i)).getD 0, s.bytes.length + 1)))

/-- What the startup code finds at the initial stack pointer. -/
structure StackDecodes (k : Kmem) (root rsp : Nat) (argv envp : List ArgString) : Prop where
  count : userWord k root rsp = some argv.length
  arguments : ∀ i s, argv[i]? = some s → ∃ ptr,
    userWord k root ((startRegisters k root rsp).rsi + 8 * i) = some ptr ∧ UserText k root ptr s
  argumentsEnd : userWord k root ((startRegisters k root rsp).rsi + 8 * argv.length) = some 0
  environment : ∀ i s, envp[i]? = some s → ∃ ptr,
    userWord k root ((startRegisters k root rsp).rdx + 8 * i) = some ptr ∧ UserText k root ptr s
  environmentEnd : userWord k root ((startRegisters k root rsp).rdx + 8 * envp.length) = some 0
  disjoint : (stackPieces k root rsp argv envp).Pairwise Apart

variable {argv envp : List ArgString} {m : Sparse.Memory Access}
  (hArgv : argv.length ≤ 32) (hEnvp : envp.length ≤ 32) (hInv : AsInv k root)
  (hMemory : k.memory root = blockOn argv envp m)
  (hCells : ∀ va, blockBase argv envp ≤ va → va < userStackTop → (m va).isSome = true)

include hArgv hEnvp hInv hMemory hCells

theorem block_userByte_word (hByte : (wordBytes (blockWords argv envp))[i]? = some byte) :
    userByte k root (blockBase argv envp + i) = some byte := by
  obtain ⟨hEnvpBase, hArgvBase, hWords, _⟩ := layout_bounds hArgv hEnvp
  obtain ⟨hi, _⟩ := List.getElem?_eq_some_iff.mp hByte
  rw [wordBytes_length, blockWords_length] at hi
  have hTop : userStackTop = 0x00007FFFFFFFF000 := rfl
  rw [userByte_eq hInv (by omega), hMemory]
  exact blockOn_word hCells hArgv hEnvp hByte

theorem block_userWord (hWord : (blockWords argv envp)[j]? = some word) (hSmall : word < 2 ^ 64) :
    userWord k root (blockBase argv envp + 8 * j) = some word := by
  refine userWord_of_bytes hSmall fun i hi => ?_
  rw [Nat.add_assoc]
  apply block_userByte_word hArgv hEnvp hInv hMemory hCells
  rw [wordBytes_getElem? _ _ hi, hWord, Option.map_some]

theorem block_userByte (hByte : (textOf argv ++ textOf envp)[i]? = some byte) :
    userByte k root (argvBase argv envp + i) = some byte := by
  obtain ⟨hEnvpBase, hArgvBase, hWords, _⟩ := layout_bounds hArgv hEnvp
  obtain ⟨hi, _⟩ := List.getElem?_eq_some_iff.mp hByte
  rw [List.length_append] at hi
  have hTop : userStackTop = 0x00007FFFFFFFF000 := rfl
  rw [userByte_eq hInv (by omega), hMemory]
  exact blockOn_text hCells hArgv hEnvp hByte

theorem block_argument (hs : argv[i]? = some s) :
    UserText k root (argvBase argv envp + (textOf (argv.take i)).length) s := by
  intro j byte hByte
  have hAt := textOf_getElem? hs hByte
  obtain ⟨hLt, _⟩ := List.getElem?_eq_some_iff.mp hAt
  rw [Nat.add_assoc]
  apply block_userByte hArgv hEnvp hInv hMemory hCells
  rw [List.getElem?_append_left hLt, hAt]

theorem block_environment (hs : envp[i]? = some s) :
    UserText k root (envpBase envp + (textOf (envp.take i)).length) s := by
  intro j byte hByte
  have hAt := textOf_getElem? hs hByte
  obtain ⟨_, hArgvBase, _⟩ := layout_bounds hArgv hEnvp
  rw [← hArgvBase, Nat.add_assoc, Nat.add_assoc]
  apply block_userByte hArgv hEnvp hInv hMemory hCells
  rw [List.getElem?_append_right (Nat.le_add_right _ _), Nat.add_sub_cancel_left, hAt]

theorem block_startRegisters : (startRegisters k root (blockBase argv envp)).rdi = argv.length ∧
    (startRegisters k root (blockBase argv envp)).rsi = blockBase argv envp + 8 * 1 ∧
    (startRegisters k root (blockBase argv envp)).rdx =
      blockBase argv envp + 8 * (2 + argv.length) := by
  obtain ⟨hEnvpBase, hArgvBase, hWords, _⟩ := layout_bounds hArgv hEnvp
  have hTop : userStackTop = 0x00007FFFFFFFF000 := rfl
  have hCount := block_userWord hArgv hEnvp hInv hMemory hCells (blockWords_getElem? argv envp).1
    (show argv.length < 2 ^ 64 by omega)
  rw [Nat.mul_zero, Nat.add_zero] at hCount
  simp only [startRegisters, hCount, Option.getD_some, true_and]
  constructor
  · rw [u64_of_lt (by omega)]
  · rw [u64_of_lt (by omega)]
    omega

theorem block_decodes : StackDecodes k root (blockBase argv envp) argv envp := by
  obtain ⟨hEnvpBase, hArgvBase, hWords, _⟩ := layout_bounds hArgv hEnvp
  have hTop : userStackTop = 0x00007FFFFFFFF000 := rfl
  obtain ⟨hCount, hArguments, hFirstEnd, hEnvironment, hSecondEnd⟩ := blockWords_getElem? argv envp
  obtain ⟨_, hRsi, hRdx⟩ := block_startRegisters hArgv hEnvp hInv hMemory hCells
  -- the pointers, as words that user code loads
  have hArgPtr : ∀ i < argv.length, userWord k root
      ((startRegisters k root (blockBase argv envp)).rsi + 8 * i) =
        some (argvBase argv envp + (textOf (argv.take i)).length) := by
    intro i hi
    have hText := textOf_take_le_all argv i
    rw [hRsi, Nat.add_assoc, ← Nat.mul_add]
    exact block_userWord hArgv hEnvp hInv hMemory hCells (hArguments i hi) (by omega)
  have hEnvPtr : ∀ i < envp.length, userWord k root
      ((startRegisters k root (blockBase argv envp)).rdx + 8 * i) =
        some (envpBase envp + (textOf (envp.take i)).length) := by
    intro i hi
    have hText := textOf_take_le_all envp i
    rw [hRdx, Nat.add_assoc, ← Nat.mul_add]
    exact block_userWord hArgv hEnvp hInv hMemory hCells (hEnvironment i hi) (by omega)
  refine ⟨?_, ?_, ?_, ?_, ?_, ?_⟩
  · have := block_userWord hArgv hEnvp hInv hMemory hCells hCount (by omega)
    rwa [Nat.mul_zero, Nat.add_zero] at this
  · intro i s hs
    obtain ⟨hi, _⟩ := List.getElem?_eq_some_iff.mp hs
    exact ⟨_, hArgPtr i hi, block_argument hArgv hEnvp hInv hMemory hCells hs⟩
  · rw [hRsi, Nat.add_assoc, ← Nat.mul_add]
    exact block_userWord hArgv hEnvp hInv hMemory hCells hFirstEnd (by omega)
  · intro i s hs
    obtain ⟨hi, _⟩ := List.getElem?_eq_some_iff.mp hs
    exact ⟨_, hEnvPtr i hi, block_environment hArgv hEnvp hInv hMemory hCells hs⟩
  · rw [hRdx, Nat.add_assoc, ← Nat.mul_add]
    exact block_userWord hArgv hEnvp hInv hMemory hCells hSecondEnd (by omega)
  · have hFirst := @strings_apart (argvBase argv envp) argv (fun i => (userWord k root
      ((startRegisters k root (blockBase argv envp)).rsi + 8 * i)).getD 0)
      (fun i hi => by rw [hArgPtr i hi, Option.getD_some])
    have hSecond := @strings_apart (envpBase envp) envp (fun i => (userWord k root
      ((startRegisters k root (blockBase argv envp)).rdx + 8 * i)).getD 0)
      (fun i hi => by rw [hEnvPtr i hi, Option.getD_some])
    -- the words lie below all strings, the arguments below the environment
    have hBelow : ∀ piece ∈ (List.range (argv.length + envp.length + 3)).map
        (fun j => (blockBase argv envp + 8 * j, 8)), piece.1 + piece.2 ≤ argvBase argv envp := by
      intro piece hPiece
      obtain ⟨j, hj, rfl⟩ := List.mem_map.mp hPiece
      rw [List.mem_range] at hj
      omega
    rw [stackPieces, List.pairwise_append, List.pairwise_append]
    refine ⟨?_, ⟨hFirst.1, hSecond.1, ?_⟩, ?_⟩
    · rw [List.pairwise_map]
      refine List.Pairwise.imp (fun hOrder => ?_) List.pairwise_lt_range
      unfold Apart
      omega
    · intro a ha b hb
      have hA := hFirst.2 a ha
      have hB := hSecond.2 b hb
      exact Or.inl (by omega)
    · intro a ha b hb
      have hA := hBelow a ha
      obtain hb | hb := List.mem_append.mp hb
      · exact Or.inl (hA.trans (hFirst.2 b hb).1)
      · have hB := hSecond.2 b hb
        exact Or.inl (by omega)

end Decode

theorem stack_isSome (m : Sparse.Memory Access) (hLow : userStackBottom ≤ va)
    (hHigh : va < userStackTop) :
    (m.clear userStackBottom userStackTop stackAccess va).isSome = true := by
  rw [Sparse.Memory.clear, if_pos ⟨hLow, hHigh⟩]
  rfl

/-- The startup code of a loaded program finds the arguments and the environment that were
given to the loader, if their block fits on the stack. -/
theorem elf_stack_decodes {k k' : Kmem} {root entry rsp : Nat} {foreign : Nat → Prop}
    {img : ElfImage} {argv envp : List ArgString} (h : Space k root foreign noSpare)
    (hArgv : argv.length ≤ 32) (hEnvp : envp.length ≤ 32)
    (hFits : blockSize argv envp ≤ userStackPages * 0x1000)
    (hLoad : elfLoadImage k root img argv envp = .ok (.ok (entry, rsp), k')) :
    StackDecodes k' root rsp argv envp := by
  have hLoaded := elfLoadImage_loaded h hLoad
  have hRsp := hLoaded.rsp_eq
  have hMemory := hLoaded.memory
  rw [List.take_of_length_le hArgv, List.take_of_length_le hEnvp] at hRsp hMemory
  have hBase := blockBase_add_size hArgv hEnvp
  have hBottom : userStackBottom + userStackPages * 0x1000 = userStackTop := by decide
  rw [hRsp]
  refine block_decodes hArgv hEnvp hLoaded.step.space.inv hMemory fun va hLow hHigh => ?_
  exact stack_isSome _ (by omega) hHigh

/-- Whether a load succeeds does not depend on the arguments. -/
theorem elfLoadImage_arguments {k : Kmem} {root : Nat} {img : ElfImage} {start : Nat × Nat}
    {argv envp : List ArgString} (hLoad : elfLoadImage k root img argv envp = .ok (.ok start, k'))
    (argv' envp' : List ArgString) :
    ∃ rsp k'', elfLoadImage k root img argv' envp' = .ok (.ok (img.ehdr.entry, rsp), k'') := by
  obtain ⟨hHeader, k₁, k₂, hSegments, hStack, _⟩ := elfLoadImage_eq_ok.mp hLoad
  exact ⟨_, _, elfLoadImage_eq_ok.mpr ⟨hHeader, k₁, k₂, hSegments, hStack, rfl, rfl⟩⟩

section Example

open Syscall

/-- A program name, one argument and one environment string. -/
def sampleArgv : List ArgString :=
  [⟨[0x2F, 0x61], by decide, by decide⟩, ⟨[0x62], by decide, by decide⟩]

def sampleEnvp : List ArgString := [⟨[0x63, 0x3D], by decide, by decide⟩]

theorem elf_stack_decodes_codeAndData :
    ∃ rsp k',
      elfLoadImage (vmmCreateAddressSpace directMapMachine).2 0x8000 codeAndDataElf sampleArgv
        sampleEnvp = .ok (.ok (codeAndDataElf.ehdr.entry, rsp), k') ∧
      StackDecodes k' 0x8000 rsp sampleArgv sampleEnvp := by
  obtain ⟨rsp, k', hLoad⟩ := elfLoadImage_arguments codeAndDataLoaded_ok sampleArgv sampleEnvp
  exact ⟨rsp, k', hLoad, elf_stack_decodes directMapMachine_space.1 (by decide) (by decide)
    (by decide) hLoad⟩

end Example

/-! ### Blocks that do not fit -/

/-- Every byte that the loader pushes, with its address. -/
def blockStores (argv envp : List ArgString) : List (Nat × UInt8) :=
  (textOf argv ++ textOf envp).mapIdx (fun i byte => (argvBase argv envp + i, byte)) ++
    (wordBytes (blockWords argv envp)).mapIdx (fun i byte => (blockBase argv envp + i, byte))

/-- After a successful load every pushed byte is on the stack, and no other user byte has
changed since the stack was mapped. -/
def ArgumentsConfined (k : Kmem) (root : Nat) (img : ElfImage) (argv envp : List ArgString) :
    Prop :=
  ∀ entry rsp k', elfLoadImage k root img argv envp = .ok (.ok (entry, rsp), k') →
    (∀ store ∈ blockStores argv envp, userStackBottom ≤ store.1 ∧ store.1 < userStackTop ∧
      userByte k' root store.1 = some store.2) ∧
    ∀ k₁ k₂, loadSegments img root (List.range img.ehdr.phnum) false k = .ok (.ok true, k₁) →
      mapStack root userStackPages userStackBottom k₁ = .ok (true, k₂) →
      ∀ va < 2 ^ 47, va < userStackBottom ∨ userStackTop ≤ va →
        userByte k' root va = userByte k₂ root va

section Confined

variable {k : Kmem} {root : Nat} {foreign : Nat → Prop} {img : ElfImage}
  {argv envp : List ArgString}
  (hArgv : argv.length ≤ 32) (hEnvp : envp.length ≤ 32)

include hArgv hEnvp

/-- The lowest byte of the block is the lowest byte of the argument count. -/
theorem blockStores_lowest :
    (blockBase argv envp, byteOf argv.length 0) ∈ blockStores argv envp := by
  refine List.mem_append_right _ (List.mem_mapIdx.mpr ⟨0, ?_, ?_⟩)
  · rw [wordBytes_length, blockWords_length]
    omega
  · rfl

/-- A block that is too large has bytes below the stack. -/
theorem fits_of_confined (hConfined : ArgumentsConfined k root img argv envp) {entry rsp : Nat}
    (hLoad : elfLoadImage k root img argv envp = .ok (.ok (entry, rsp), k')) :
    blockSize argv envp ≤ userStackPages * 0x1000 := by
  have hBase := blockBase_add_size hArgv hEnvp
  have hBottom : userStackBottom + userStackPages * 0x1000 = userStackTop := by decide
  have hLowest := ((hConfined entry rsp k' hLoad).1 _ (blockStores_lowest hArgv hEnvp)).1
  omega

/-- The argument block stays on the stack and leaves the rest of memory alone exactly if it
is no larger than the stack. -/
theorem arguments_confined_iff (h : Space k root foreign noSpare) :
    ArgumentsConfined k root img argv envp ↔
      ∀ entry rsp k', elfLoadImage k root img argv envp = .ok (.ok (entry, rsp), k') →
        blockSize argv envp ≤ userStackPages * 0x1000 := by
  constructor
  · intro hConfined entry rsp k' hLoad
    exact fits_of_confined hArgv hEnvp hConfined hLoad
  intro hFits entry rsp k' hLoad
  obtain ⟨hEnvpBase, hArgvBase, hWords, _⟩ := layout_bounds hArgv hEnvp
  have hBase := blockBase_add_size hArgv hEnvp
  have hBottom : userStackBottom + userStackPages * 0x1000 = userStackTop := by decide
  have hRoom := hFits entry rsp k' hLoad
  have hLoaded := elfLoadImage_loaded h hLoad
  have hMemory := hLoaded.memory
  rw [List.take_of_length_le hArgv, List.take_of_length_le hEnvp] at hMemory
  have hInv := hLoaded.step.space.inv
  constructor
  · -- the text lies above the words, and the words above the bottom of the stack
    have hCells := fun va (hLow : blockBase argv envp ≤ va) (hHigh : va < userStackTop) =>
      stack_isSome ((List.range img.ehdr.phnum).foldl (loadHeader img) (k.memory root))
        (show userStackBottom ≤ va by omega) hHigh
    intro store hStore
    obtain hStore | hStore := List.mem_append.mp hStore
    · obtain ⟨i, hi, rfl⟩ := List.mem_mapIdx.mp hStore
      have hByte := block_userByte hArgv hEnvp hInv hMemory hCells (List.getElem?_eq_getElem hi)
      rw [List.length_append] at hi
      exact ⟨by dsimp only; omega, by dsimp only; omega, hByte⟩
    · obtain ⟨i, hi, rfl⟩ := List.mem_mapIdx.mp hStore
      have hByte :=
        block_userByte_word hArgv hEnvp hInv hMemory hCells (List.getElem?_eq_getElem hi)
      rw [wordBytes_length, blockWords_length] at hi
      exact ⟨by dsimp only; omega, by dsimp only; omega, hByte⟩
  · intro k₁ k₂ hSegments hStack va hUser hOutside
    obtain ⟨hStep₁, hMemory₁, _⟩ := loadSegments_memory img _ false h hSegments
    obtain ⟨hStep₂, _, hMemory₂, _⟩ := mapStack_memory userStackPages hStep₁.space (by decide)
      (by decide) hStack
    rw [hBottom, hMemory₁] at hMemory₂
    rw [userByte_eq hInv hUser, userByte_eq hStep₂.space.inv hUser, hMemory, hMemory₂,
      Sparse.Memory.bytes, Sparse.Memory.bytes, blockOn_outside hArgv hEnvp _ (by omega)]

end Confined

section Oversized

open Syscall

/-- The longest string that `copy_user_string_array` delivers. -/
def longestString : ArgString where
  bytes := List.replicate 4095 0x41
  noNul := fun hMem => absurd (List.eq_of_mem_replicate hMem) (by decide)
  short := by rw [List.length_replicate]; decide

theorem textOf_replicate (s : ArgString) (count : Nat) :
    (textOf (List.replicate count s)).length = count * (s.bytes.length + 1) := by
  induction count with
  | zero => rw [Nat.zero_mul]; rfl
  | succ count ih =>
    rw [List.replicate_succ, textOf_cons, List.length_append, ih, List.length_append,
      List.length_singleton, Nat.succ_mul, Nat.add_comm]

/-- Seventeen longest strings need more than sixteen pages. -/
theorem blockSize_oversized :
    userStackPages * 0x1000 < blockSize (List.replicate 17 longestString) [] := by
  have hText : (textOf (List.replicate 17 longestString)).length = 17 * 4096 := by
    rw [textOf_replicate, longestString, List.length_replicate]
  rw [blockSize, hText, List.length_replicate]
  decide

/-- A small block is on the stack. -/
theorem arguments_confined_iff_sample :
    ArgumentsConfined (vmmCreateAddressSpace directMapMachine).2 0x8000 codeAndDataElf sampleArgv
      sampleEnvp :=
  (arguments_confined_iff (by decide) (by decide) directMapMachine_space.1).mpr
    fun _ _ _ _ => by decide

/-- The load succeeds all the same. -/
theorem oversized_not_confined :
    (∃ rsp k', elfLoadImage (vmmCreateAddressSpace directMapMachine).2 0x8000 codeAndDataElf
      (List.replicate 17 longestString) [] = .ok (.ok (codeAndDataElf.ehdr.entry, rsp), k')) ∧
    ¬ ArgumentsConfined (vmmCreateAddressSpace directMapMachine).2 0x8000 codeAndDataElf
      (List.replicate 17 longestString) [] := by
  obtain ⟨rsp, k', hLoad⟩ :=
    elfLoadImage_arguments codeAndDataLoaded_ok (List.replicate 17 longestString) []
  refine ⟨⟨rsp, k', hLoad⟩, fun hConfined => ?_⟩
  have hFits := fits_of_confined (by rw [List.length_replicate]; decide) (by decide) hConfined hLoad
  exact absurd hFits (Nat.not_le.mpr blockSize_oversized)

end Oversized

end Kryos.Process
