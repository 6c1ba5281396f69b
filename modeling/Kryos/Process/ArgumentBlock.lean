import Kryos.Process.ElfMemory

/-! The argument block. The strings are pushed one by one below the top of the
stack, then the vectors below them; what is left in memory is two stores, one
of all the text and one of all the words. -/
namespace Kryos.Process

open Word Memory LittleEndian

/-! ### The layout -/

/-- The strings of an array one after another, each with its NUL. -/
def textOf (strings : List ArgString) : List UInt8 := strings.flatMap fun s => s.bytes ++ [0]

/-- Where the strings of a text at `base` begin. -/
def pointersFrom : Nat → List ArgString → List Nat
  | _, [] => []
  | base, s :: rest => base :: pointersFrom (base + s.bytes.length + 1) rest

/-- The bytes of words, one after another. -/
def wordBytes (words : List Nat) : List UInt8 := words.flatMap fun w => bytesOf w 8

section Layout

variable (argv envp : List ArgString)

/-- The text of the environment lies under the top of the stack. -/
def envpBase : Nat := userStackTop - (textOf envp).length

/-- The text of the arguments lies under it. -/
def argvBase : Nat := envpBase envp - (textOf argv).length

/-- The words of the block, from the lowest address on. -/
def blockWords : List Nat :=
  [argv.length] ++ ((pointersFrom (argvBase argv envp) argv ++ [0]) ++
    (pointersFrom (envpBase envp) envp ++ [0]))

/-- The lowest address of the block: the initial stack pointer. -/
def blockBase : Nat := argvBase argv envp / 16 * 16 - 8 * (argv.length + envp.length + 3)

/-- The size of the block: the strings with their NULs, the padding and the words. -/
def blockSize : Nat :=
  ((textOf argv).length + (textOf envp).length + 15) / 16 * 16 + 8 * (argv.length + envp.length + 3)

theorem textOf_cons (s : ArgString) (rest : List ArgString) :
    textOf (s :: rest) = (s.bytes ++ [0]) ++ textOf rest := rfl

theorem textOf_length (strings : List ArgString) :
    (textOf strings).length ≤ 65536 * strings.length := by
  induction strings with
  | nil => simp [textOf]
  | cons s rest ih =>
    have hShort : s.bytes.length < 65536 := s.short
    simp only [textOf_cons, List.length_append, List.length_cons, List.length_nil]
    omega

theorem pointersFrom_length (base : Nat) (strings : List ArgString) :
    (pointersFrom base strings).length = strings.length := by
  induction strings generalizing base with
  | nil => rfl
  | cons s rest ih => rw [pointersFrom, List.length_cons, List.length_cons, ih]

theorem wordBytes_append (first second : List Nat) :
    wordBytes (first ++ second) = wordBytes first ++ wordBytes second := List.flatMap_append

theorem wordBytes_length (words : List Nat) : (wordBytes words).length = 8 * words.length := by
  induction words with
  | nil => rfl
  | cons w rest ih =>
    simp [wordBytes, bytesOf]
    omega

theorem blockWords_length : (blockWords argv envp).length = argv.length + envp.length + 3 := by
  simp only [blockWords, List.length_append, List.length_cons, List.length_nil, pointersFrom_length]
  omega

theorem putList_words (m : Sparse.Memory Access) {base next : Nat} (first second : List Nat)
    (hNext : base + 8 * first.length = next) :
    (m.putList next (wordBytes second)).putList base (wordBytes first) =
      m.putList base (wordBytes (first ++ second)) := by
  rw [wordBytes_append, ← Sparse.Memory.putList_append, wordBytes_length, hNext]

variable {argv envp} (hArgv : argv.length ≤ 32) (hEnvp : envp.length ≤ 32)

include hArgv hEnvp

/-- With at most 32 strings each nothing reaches below address zero. -/
theorem layout_bounds :
    envpBase envp + (textOf envp).length = userStackTop ∧
    argvBase argv envp + (textOf argv).length = envpBase envp ∧
    blockBase argv envp + 8 * (argv.length + envp.length + 3) = argvBase argv envp / 16 * 16 ∧
    userStackTop ≤ blockBase argv envp + 0x410000 := by
  have hFirst := textOf_length argv
  have hSecond := textOf_length envp
  simp only [blockBase, argvBase, envpBase, userStackTop]
  omega

theorem blockBase_add_size : blockBase argv envp + blockSize argv envp = userStackTop := by
  have hFirst := textOf_length argv
  have hSecond := textOf_length envp
  simp only [blockBase, blockSize, argvBase, envpBase, userStackTop]
  omega

end Layout

/-! ### Pushing -/

section Push

variable {root : Nat} {foreign : Nat → Prop}

/-- `write_user_stack_bytes` is a store, and bytes without a page are lost. -/
theorem writeUserStackBytes_memory (bytes : List UInt8) {vaddr : Nat} {k : Kmem}
    (h : Space k root foreign noSpare) (hUser : vaddr + bytes.length ≤ 2 ^ 47) :
    SpaceStep k (writeUserStackBytes root vaddr bytes k) root foreign ∧
    (writeUserStackBytes root vaddr bytes k).memory root = (k.memory root).putList vaddr bytes := by
  induction bytes generalizing vaddr k with
  | nil => exact ⟨SpaceStep.refl h, (Sparse.Memory.putList_nil vaddr).symm⟩
  | cons byte rest ih =>
    rw [List.length_cons] at hUser
    have hPage : alignDown vaddr 0x1000 = vaddr / 0x1000 * 0x1000 :=
      alignDown_eq (k := 12) (by omega) (by decide)
    have hAligned : alignDown vaddr 0x1000 % pmmPageSize = 0 := by
      rw [hPage]
      exact Nat.mul_mod_left _ _
    have hSum : alignDown vaddr 0x1000 + vaddr % 0x1000 = vaddr := by
      omega
    unfold writeUserStackBytes
    rw [u64_of_lt (by omega), ← Sparse.Memory.putList_cons]
    cases hPhys : vmmGetPhys k root (alignDown vaddr 0x1000) with
    | none =>
      obtain ⟨hStep, hMemory⟩ := @ih (vaddr + 1) k h (by omega)
      refine ⟨hStep, hMemory.trans ?_⟩
      -- no page, no cell: the store changes nothing
      have hNone : k.memory root vaddr = none := by
        rw [h.inv.getPhys_eq_none_iff (by omega)] at hPhys
        rw [← Option.isNone_iff_eq_none, ← Option.not_isSome,
          @memory_isSome_page k root vaddr (alignDown vaddr 0x1000) (by omega) (by omega)
            (by simp only [pmmPageSize]; omega), hPhys]
        rfl
      congr 1
      funext a
      rw [Sparse.Memory.put]
      split
      · rw [show a = vaddr by omega, hNone]
        rfl
      · rfl
    | some frame =>
      obtain ⟨hLower, hAt⟩ := getPhys_offset h.inv (show alignDown vaddr 0x1000 < 2 ^ 47 by omega)
        hAligned hPhys (show vaddr % 0x1000 < pmmPageSize by simp only [pmmPageSize]; omega)
      rw [hSum] at hLower hAt
      obtain ⟨hStored, hStep⟩ := writeByte_memory h hLower hAt byte
      obtain ⟨hStep', hMemory⟩ := @ih (vaddr + 1) _ hStep.space (by omega)
      exact ⟨hStep.trans hStep', hMemory.trans (by rw [hStored])⟩

/-- The strings of an array end up as one text below the stack pointer. -/
theorem pushStrings_memory (strings : List ArgString) {rsp : Nat} {k : Kmem}
    (h : Space k root foreign noSpare) (hTop : rsp ≤ userStackTop)
    (hRoom : 65536 * strings.length ≤ rsp) :
    ∃ k', pushStrings root strings rsp k =
        (pointersFrom (rsp - (textOf strings).length) strings, rsp - (textOf strings).length, k') ∧
      SpaceStep k k' root foreign ∧
      k'.memory root =
        (k.memory root).putList (rsp - (textOf strings).length) (textOf strings) := by
  induction strings with
  | nil => exact ⟨k, rfl, SpaceStep.refl h, (Sparse.Memory.putList_nil _).symm⟩
  | cons s rest ih =>
    rw [List.length_cons, Nat.mul_succ] at hRoom
    simp only [userStackTop] at hTop
    obtain ⟨k₁, hPush, hStep, hMemory⟩ := ih (by omega)
    have hShort : s.bytes.length < 65536 := s.short
    have hText := textOf_length rest
    have hLength : (textOf (s :: rest)).length = s.bytes.length + 1 + (textOf rest).length := by
      simp only [textOf_cons, List.length_append, List.length_singleton]
    have hSub : sub64 (rsp - (textOf rest).length) (s.bytes.length + 1) =
        rsp - (textOf (s :: rest)).length := by
      rw [sub64_of_le (by omega) (by omega), hLength]
      omega
    obtain ⟨hStep', hMemory'⟩ := @writeUserStackBytes_memory root foreign (s.bytes ++ [0])
      (rsp - (textOf (s :: rest)).length) _ hStep.space
      (by simp only [List.length_append, List.length_singleton]; omega)
    refine ⟨_, ?_, hStep.trans hStep', ?_⟩
    · rw [pushStrings, hPush]
      dsimp only
      rw [hSub, pointersFrom, show rsp - (textOf (s :: rest)).length + s.bytes.length + 1 =
        rsp - (textOf rest).length by omega]
    · have hBase : rsp - (textOf (s :: rest)).length + (s.bytes ++ [0]).length =
          rsp - (textOf rest).length := by
        simp only [hLength, List.length_append, List.length_singleton]
        omega
      have hJoin := @Sparse.Memory.putList_append _ (k.memory root)
        (rsp - (textOf (s :: rest)).length) (s.bytes ++ [0]) (textOf rest)
      rw [hBase] at hJoin
      rw [hMemory', hMemory]
      exact hJoin

/-- Pushed words end up as one array below the stack pointer. -/
theorem pushWords_memory (words : List Nat) {rsp : Nat} {k : Kmem}
    (h : Space k root foreign noSpare)
    (hTop : rsp ≤ userStackTop) (hRoom : 8 * words.length ≤ rsp) :
    ∃ k', pushWords root words rsp k = (rsp - 8 * words.length, k') ∧ SpaceStep k k' root foreign ∧
      k'.memory root = (k.memory root).putList (rsp - 8 * words.length) (wordBytes words) := by
  induction words with
  | nil => exact ⟨k, rfl, SpaceStep.refl h, (Sparse.Memory.putList_nil _).symm⟩
  | cons word rest ih =>
    rw [List.length_cons] at hRoom
    simp only [userStackTop] at hTop
    obtain ⟨k₁, hPush, hStep, hMemory⟩ := ih (by omega)
    have hBytes : (bytesOf word 8).length = 8 := by simp [bytesOf]
    have hSub : sub64 (rsp - 8 * rest.length) 8 = rsp - 8 * (word :: rest).length := by
      rw [sub64_of_le (by omega) (by omega), List.length_cons]
      omega
    obtain ⟨hStep', hMemory'⟩ := @writeUserStackBytes_memory root foreign (bytesOf word 8)
      (rsp - 8 * (word :: rest).length) _ hStep.space (by omega)
    refine ⟨_, ?_, hStep.trans hStep', ?_⟩
    · rw [pushWords, hPush]
      dsimp only
      rw [hSub]
    · rw [hMemory', hMemory, show word :: rest = [word] ++ rest from rfl, wordBytes_append,
        ← Sparse.Memory.putList_append, wordBytes_length]
      simp only [List.length_append, List.length_singleton]
      rw [show rsp - 8 * (1 + rest.length) + 8 * 1 = rsp - 8 * rest.length by omega]
      simp only [wordBytes, List.flatMap_cons, List.flatMap_nil, List.append_nil]

/-- The argument block on memory. -/
def blockOn (argv envp : List ArgString) (m : Sparse.Memory Access) : Sparse.Memory Access :=
  (m.putList (argvBase argv envp) (textOf argv ++ textOf envp)).putList (blockBase argv envp)
    (wordBytes (blockWords argv envp))

/-- All pushes together: the text below the top of the stack, the words below the text. -/
theorem injectArguments_memory {argv envp : List ArgString} (hArgv : argv.length ≤ 32)
    (hEnvp : envp.length ≤ 32) {k : Kmem} (h : Space k root foreign noSpare) :
    ∃ k', injectArguments root argv envp k = (blockBase argv envp, k') ∧
      SpaceStep k k' root foreign ∧ k'.memory root = blockOn argv envp (k.memory root) := by
  obtain ⟨hEnvpBase, hArgvBase, hWords, hLow⟩ := layout_bounds hArgv hEnvp
  have hTop : userStackTop = 0x00007FFFFFFFF000 := rfl
  obtain ⟨k₁, hPush₁, hStep₁, hMemory₁⟩ :=
    pushStrings_memory envp h (Nat.le_refl userStackTop) (by omega)
  obtain ⟨k₂, hPush₂, hStep₂, hMemory₂⟩ :=
    pushStrings_memory argv hStep₁.space (show envpBase envp ≤ userStackTop by omega) (by omega)
  have hAlign : alignDown (argvBase argv envp) 16 = argvBase argv envp / 16 * 16 :=
    alignDown_eq (k := 4) (by omega) (by decide)
  -- the three arrays of words, from the highest on
  obtain ⟨words₃, hWords₃⟩ : ∃ words, words = pointersFrom (envpBase envp) envp ++ [0] := ⟨_, rfl⟩
  obtain ⟨words₄, hWords₄⟩ : ∃ words, words = pointersFrom (argvBase argv envp) argv ++ [0] :=
    ⟨_, rfl⟩
  have hLength₃ : words₃.length = envp.length + 1 := by
    rw [hWords₃, List.length_append, pointersFrom_length, List.length_singleton]
  have hLength₄ : words₄.length = argv.length + 1 := by
    rw [hWords₄, List.length_append, pointersFrom_length, List.length_singleton]
  obtain ⟨k₃, hPush₃, hStep₃, hMemory₃⟩ := pushWords_memory words₃ hStep₂.space
    (show argvBase argv envp / 16 * 16 ≤ userStackTop by omega) (by omega)
  obtain ⟨k₄, hPush₄, hStep₄, hMemory₄⟩ := pushWords_memory words₄ hStep₃.space
    (show argvBase argv envp / 16 * 16 - 8 * words₃.length ≤ userStackTop by omega) (by omega)
  obtain ⟨k₅, hPush₅, hStep₅, hMemory₅⟩ := pushWords_memory [argv.length] hStep₄.space
    (show argvBase argv envp / 16 * 16 - 8 * words₃.length - 8 * words₄.length ≤
      userStackTop by omega)
    (by rw [List.length_singleton]; omega)
  rw [List.length_singleton] at hPush₅ hMemory₅
  have hBase : argvBase argv envp / 16 * 16 - 8 * words₃.length - 8 * words₄.length - 8 * 1 =
      blockBase argv envp := by omega
  refine ⟨k₅, ?_, (((hStep₁.trans hStep₂).trans hStep₃).trans hStep₄).trans hStep₅, ?_⟩
  · unfold injectArguments
    rw [List.take_of_length_le hArgv, List.take_of_length_le hEnvp]
    dsimp only
    rw [hPush₁]
    rw [← envpBase, hPush₂]
    rw [← argvBase, hAlign, ← hWords₃, hPush₃]
    rw [← hWords₄, hPush₄]
    rw [hPush₅, hBase]
  · have hText :
        ((k.memory root).putList (envpBase envp) (textOf envp)).putList (argvBase argv envp)
        (textOf argv) =
          (k.memory root).putList (argvBase argv envp) (textOf argv ++ textOf envp) := by
      rw [← Sparse.Memory.putList_append, hArgvBase]
    rw [hMemory₅, hMemory₄, hMemory₃, hMemory₂, hMemory₁, ← envpBase, ← argvBase, hText, hBase,
      putList_words _ words₄ words₃ (by omega),
      putList_words _ [argv.length] (words₄ ++ words₃) (by rw [List.length_singleton]; omega),
      hWords₃, hWords₄]
    rfl

end Push

end Kryos.Process
