import Kryos.Base.Bitmap
import Kryos.Base.Word

/-! The physical memory manager: one bit per 4 KiB frame, a linear first-fit
search, and a counter of used frames kept beside the bitmap. -/
namespace Kryos.Memory

open Word

/-- `PMM_PAGE_SIZE`. -/
def pmmPageSize : Nat := 4096

/-- The static variables of the allocator. The bitmap is the memory behind
`phys_to_virt(bitmap_phys_addr)`, of which the first `bitmapSize` bytes belong
to the allocator. -/
structure Pmm where
  bitmap : Bitmap.Bytes
  totalFrames : Nat
  usedFrames : Nat
  maxPhysicalAddress : Nat
  bitmapPhysAddr : Nat
  bitmapSize : Nat

/-- The four calls of `panic` in `pmm_free_page`, with the freed address. -/
inductive PmmPanic where
  | unalignedFree (physAddr : Nat)
  | outOfRangeFree (physAddr : Nat)
  | doubleFree (physAddr : Nat)
  | reservedFree (physAddr : Nat)
  deriving DecidableEq, Repr

/-- `pmm_init`. Everything is reserved by default; bytes past the bitmap keep
their contents `memory`. -/
def pmmInit (memory : Bitmap.Bytes) (bitmapStartPhys maxPhysAddr : Nat) : Pmm :=
  let totalFrames := maxPhysAddr / pmmPageSize
  let bitmapSize := if totalFrames % 8 ≠ 0 then totalFrames / 8 + 1 else totalFrames / 8
  { bitmap := fun i => if i < bitmapSize then 0xFF else memory i
    totalFrames := totalFrames
    usedFrames := totalFrames
    maxPhysicalAddress := maxPhysAddr
    bitmapPhysAddr := alignUp bitmapStartPhys pmmPageSize
    bitmapSize := bitmapSize }

/-- The loop body of `pmm_mark_region` at one page address. -/
def Pmm.markFrame (p : Pmm) (addr : Nat) (free : Bool) : Pmm :=
  let frame := addr >>> 12
  let isCurrentlyFree := !Bitmap.isSet p.bitmap frame
  if free then
    if !isCurrentlyFree then
      { p with bitmap := Bitmap.clear p.bitmap frame, usedFrames := sub64 p.usedFrames 1 }
    else p
  else
    if isCurrentlyFree then
      { p with bitmap := Bitmap.set p.bitmap frame, usedFrames := u64 (p.usedFrames + 1) }
    else p

/-- The loop of `pmm_mark_region`. The induction variable wraps at 64 bits, so
after `2 ^ 52` page steps it has visited every page address. -/
def Pmm.markLoop (endAddr : Nat) (free : Bool) : Nat → Nat → Pmm → Option Pmm
  | 0, addr, p => if addr < endAddr then none else some p
  | fuel + 1, addr, p =>
    if addr < endAddr then
      markLoop endAddr free fuel (u64 (addr + pmmPageSize)) (p.markFrame addr free)
    else some p

/-- `pmm_mark_region`. The result is `none` when the loop never ends. -/
def pmmMarkRegion (p : Pmm) (physAddr length : Nat) (free : Bool) : Option Pmm :=
  let startAddr := alignDown physAddr pmmPageSize
  let roundedEnd := alignUp (u64 (physAddr + length)) pmmPageSize
  let endAddr := if roundedEnd > p.maxPhysicalAddress then p.maxPhysicalAddress else roundedEnd
  p.markLoop endAddr free (2 ^ 52) startAddr

/-- `pmm_reserve_boot_regions`. -/
def pmmReserveBootRegions (p : Pmm) : Option Pmm :=
  pmmMarkRegion p 0 (u64 (p.bitmapPhysAddr + p.bitmapSize)) false

/-- The inner loop of `pmm_alloc_page`: the first clear bit of one byte. -/
def firstClearBit (byte : UInt8) : Option Nat :=
  (List.range 8).find? (fun bit => byte &&& Bitmap.bitMask bit == 0)

/-- The outer loop of `pmm_alloc_page` over the remaining bytes. -/
def Pmm.allocLoop (p : Pmm) : Nat → Nat → Nat × Pmm
  | 0, _ => (0, p)
  | remaining + 1, byte =>
    if p.bitmap byte != 0xFF then
      match firstClearBit (p.bitmap byte) with
      | some bit =>
        let frame := byte * 8 + bit
        if frame ≥ p.totalFrames then (0, p)
        else
          (frame * pmmPageSize,
            { p with
              bitmap := Bitmap.set p.bitmap frame
              usedFrames := u64 (p.usedFrames + 1) })
      | none => p.allocLoop remaining (byte + 1)
    else p.allocLoop remaining (byte + 1)

/-- `pmm_alloc_page`. The address `0` means that no frame was found. -/
def pmmAllocPage (p : Pmm) : Nat × Pmm := p.allocLoop p.bitmapSize 0

/-- `pmm_free_page`. -/
def pmmFreePage (p : Pmm) (physAddr : Nat) : Except PmmPanic Pmm :=
  if physAddr % pmmPageSize ≠ 0 then .error (.unalignedFree physAddr)
  else if physAddr ≥ p.maxPhysicalAddress then .error (.outOfRangeFree physAddr)
  else
    let frame := physAddr / pmmPageSize
    if !Bitmap.isSet p.bitmap frame then .error (.doubleFree physAddr)
    else
      let firstUsablePhys := u64 (p.bitmapPhysAddr + p.bitmapSize)
      if physAddr < firstUsablePhys then .error (.reservedFree physAddr)
      else
        .ok { p with
          bitmap := Bitmap.clear p.bitmap frame
          usedFrames := sub64 p.usedFrames 1 }

/-- `pmm_total_frames`. -/
def pmmTotalFrames (p : Pmm) : Nat := p.totalFrames

/-- `pmm_free_frames`. -/
def pmmFreeFrames (p : Pmm) : Nat := sub64 p.totalFrames p.usedFrames

/-- `pmm_used_frames`. -/
def pmmUsedFrames (p : Pmm) : Nat := p.usedFrames

end Kryos.Memory
