import CqServer.TxLog.Frame

/-!
# The zstd format

A zstd stream is a sequence of frames, and a frame is a header, blocks of at most 128 KB and a
checksum. A raw block holds its bytes, a run-length block a byte and how often it is repeated. The
decoder hands its output on block by block, so what has been decompressed when it stops is the
blocks it has read, also if the stream then turns out to be broken. The entropy coding of a
compressed block and the checksum are parameters. Frames of the formats before 1.0 and dictionaries
are refused.
-/

namespace CqServer

open Lib List BigEndian

inductive Block where
  | raw (content : Bytes)
  | rle (byte : UInt8) (size : Nat)
  | compressed (regenerated : Bytes)
  deriving DecidableEq

def Block.size : Block → Nat
  | .raw content => content.length
  | .rle _ size => size
  | .compressed regenerated => regenerated.length

def Block.bytes : Block → Bytes
  | .raw content => content
  | .rle byte size => replicate size byte
  | .compressed regenerated => regenerated

def regenerated (blocks : List Block) : Bytes := blocks.flatMap Block.bytes

theorem length_regenerated (blocks : List Block) :
    (regenerated blocks).length = (blocks.map Block.size).sum := by
  rw [regenerated, length_flatMap]
  refine congrArg sum (map_congr_left fun b _ => ?_)
  cases b with
  | raw | compressed => rfl
  | rle byte size => exact length_replicate

structure ZstdFormat where
  /-- The bytes that the content of a compressed block stands for, after the bytes of its frame
  before it. -/
  compressedBlock : Bytes → Bytes → Option Bytes
  /-- The low four bytes of XXH64. -/
  checksum : Bytes → Bytes
  errorText : Bytes → String

namespace ZstdFormat

def littleEndian (bs : Bytes) : Nat := decode bs.reverse

def blockSizeMax : Nat := 128 * 1024

/-- The decoder refuses a window over 2^27 bytes. -/
def windowSizeMax : Nat := 2 ^ 27

structure Header where
  windowSize : Nat
  contentSize : Option Nat
  hasChecksum : Bool

/-- The frame header after the magic number: a descriptor, the window, the dictionary id and the
size of the content, each but the first optional. -/
def readHeader : Bytes → Option (Header × Bytes)
  | [] => none
  | descriptor :: src =>
    let d := descriptor.toNat
    let single := d.testBit 5
    let windowLength := if single then 0 else 1
    let dictLength := [0, 1, 2, 4].getD (d % 4) 0
    let sizeLength := if d / 64 = 0 then (if single then 1 else 0) else 2 ^ (d / 64)
    let dict := littleEndian ((src.drop windowLength).take dictLength)
    let size := littleEndian ((src.drop (windowLength + dictLength)).take sizeLength) +
      if sizeLength = 2 then 256 else 0
    let w := (src.headD 0).toNat
    let windowSize := if single then size else 2 ^ (10 + w / 8) / 8 * (8 + w % 8)
    if src.length < windowLength + dictLength + sizeLength then none
    else if d.testBit 3 ∨ dict ≠ 0 ∨ windowSizeMax < windowSize then none
    else some (⟨windowSize, if sizeLength = 0 then none else some size, d.testBit 2⟩,
      src.drop (windowLength + dictLength + sizeLength))

variable (fmt : ZstdFormat)

/-- A block, whether it is the last of its frame, and what follows it. -/
def readBlock (limit : Nat) (frame : Bytes) : Bytes → Option (Block × Bool × Bytes)
  | b₀ :: b₁ :: b₂ :: src =>
    let word := littleEndian [b₀, b₁, b₂]
    let last := word.testBit 0
    let size := word / 8
    if limit < size then none
    else match word / 2 % 4, src with
      | 0, src => if src.length < size then none else some (.raw (src.take size), last, src.drop size)
      | 1, byte :: src => some (.rle byte size, last, src)
      | 2, src =>
        if src.length < size then none
        else
          let before := frame.take (frame.length - src.length)
          ((fmt.compressedBlock before (src.take size)).filter (·.length ≤ limit)).map fun out =>
            (.compressed out, last, src.drop size)
      | _, _ => none
  | _ => none

/-- The blocks of a frame, and what follows them; `none` if the frame breaks off. -/
def readBlocks (limit : Nat) (frame : Bytes) : Nat → Bytes → List Block × Option Bytes
  | 0, _ => ([], none)
  | fuel + 1, src =>
    match fmt.readBlock limit frame src with
    | none => ([], none)
    | some (block, true, rest) => ([block], some rest)
    | some (block, false, rest) =>
      let (blocks, rest) := readBlocks limit frame fuel rest
      (block :: blocks, rest)

/-- The size of the content and the checksum are compared at the end of the frame. -/
def readEnd (header : Header) (blocks : List Block) (rest : Bytes) : Option Bytes :=
  let out := regenerated blocks
  if header.contentSize.any (· ≠ out.length) then none
  else if header.hasChecksum then
    if rest.take 4 = fmt.checksum out then some (rest.drop 4) else none
  else some rest

def magic : Bytes := [0x28, 0xb5, 0x2f, 0xfd]

/-- A frame, or a skippable one, which holds no blocks. -/
def readFrame (src : Bytes) : List Block × Option Bytes :=
  if src.take 4 = magic then
    match readHeader (src.drop 4) with
    | none => ([], none)
    | some (header, rest) =>
      let (blocks, rest) :=
        fmt.readBlocks (min header.windowSize blockSizeMax) src rest.length rest
      (blocks, rest.bind (fmt.readEnd header blocks))
  else
    let skipped := 8 + littleEndian ((src.drop 4).take 4)
    if 8 ≤ src.length ∧ littleEndian (src.take 4) / 16 = 0x184d2a5 ∧ skipped ≤ src.length then
      ([], some (src.drop skipped))
    else ([], none)

/-- The blocks of all frames, and whether the stream ends with a frame. -/
def readFrames : Nat → Bytes → List Block × Bool
  | 0, _ => ([], false)
  | fuel + 1, src =>
    match fmt.readFrame src with
    | (blocks, none) => (blocks, false)
    | (blocks, some []) => (blocks, true)
    | (blocks, some rest) =>
      let (others, ends) := readFrames fuel rest
      (blocks ++ others, ends)

/-- The blocks that the decoder gets to. -/
def blocks (src : Bytes) : List Block := (fmt.readFrames src.length src).1

/-- `zstd::stream::decode_all`. -/
def decodeAll (src : Bytes) : Except String Bytes :=
  if (fmt.readFrames src.length src).2 then .ok (regenerated (fmt.blocks src))
  else .error (fmt.errorText src)

theorem decodeAll_ok {src out : Bytes} (h : fmt.decodeAll src = .ok out) :
    out = regenerated (fmt.blocks src) := by
  unfold decodeAll at h
  split at h
  · cases h
    rfl
  · cases h

/-! ## Long runs -/

/-- Blocks that repeat the byte 0: a number of them at the greatest size, then one of a single
byte. -/
def runs (n : Nat) : Bytes := (replicate n [0x02, 0x00, 0x10, 0x00]).flatten ++ [0x0b, 0, 0, 0]

theorem runs_succ (n : Nat) : runs (n + 1) = [0x02, 0x00, 0x10, 0x00] ++ runs n := by
  simp [runs, replicate_succ]

theorem length_runs (n : Nat) : (runs n).length = 4 * n + 4 := by
  induction n with
  | zero => rfl
  | succ n ih =>
    rw [runs_succ, length_append, ih]
    simp only [length_cons, length_nil]
    omega

theorem readBlock_run (frame rest : Bytes) :
    fmt.readBlock blockSizeMax frame ([0x02, 0x00, 0x10, 0x00] ++ rest) =
      some (.rle 0 blockSizeMax, false, rest) := by
  have hword : littleEndian [0x02, 0x00, 0x10] = 1048578 := by decide
  simp [readBlock, hword, blockSizeMax]

theorem readBlock_last (frame : Bytes) :
    fmt.readBlock blockSizeMax frame [0x0b, 0, 0, 0] = some (.rle 0 1, true, []) := by
  have hword : littleEndian [0x0b, 0x00, 0x00] = 11 := by decide
  simp [readBlock, hword, blockSizeMax]

theorem readBlocks_runs (frame : Bytes) {n fuel : Nat} (h : n < fuel) :
    fmt.readBlocks blockSizeMax frame fuel (runs n) =
      (replicate n (.rle 0 blockSizeMax) ++ [.rle 0 1], some []) := by
  induction n generalizing fuel with
  | zero =>
    obtain ⟨fuel, rfl⟩ := Nat.exists_eq_succ_of_ne_zero (by omega : fuel ≠ 0)
    rw [readBlocks, show runs 0 = [0x0b, 0, 0, 0] from rfl, readBlock_last]
    rfl
  | succ n ih =>
    obtain ⟨fuel, rfl⟩ := Nat.exists_eq_succ_of_ne_zero (by omega : fuel ≠ 0)
    rw [readBlocks, runs_succ, readBlock_run]
    simp only [ih (Nat.lt_of_succ_lt_succ h), replicate_succ, cons_append]

/-- A frame of runs, with a window of 128 KB and no size. -/
def runsFrame (n : Nat) : Bytes := magic ++ [0x00, 0x38] ++ runs n

theorem readFrame_runsFrame (n : Nat) : fmt.readFrame (runsFrame n) =
    (replicate n (.rle 0 blockSizeMax) ++ [.rle 0 1], some []) := by
  have hheader : readHeader ([0x00, 0x38] ++ runs n) =
      some (⟨blockSizeMax, none, false⟩, runs n) := by
    simp [readHeader, littleEndian, decode, blockSizeMax, windowSizeMax]
  have hfuel : n < (runs n).length := by
    rw [length_runs]
    omega
  have hmagic : (runsFrame n).take 4 = magic := rfl
  have hdrop : (runsFrame n).drop 4 = [0x00, 0x38] ++ runs n := rfl
  rw [readFrame, if_pos hmagic, hdrop, hheader]
  simp only [Nat.min_self, fmt.readBlocks_runs _ hfuel]
  rfl

theorem decodeAll_runsFrame (n : Nat) : fmt.decodeAll (runsFrame n) =
    .ok (regenerated (replicate n (.rle 0 blockSizeMax) ++ [.rle 0 1])) := by
  have hframes : fmt.readFrames (runsFrame n).length (runsFrame n) =
      (replicate n (.rle 0 blockSizeMax) ++ [.rle 0 1], true) := by
    show fmt.readFrames (_ + 1) _ = _
    rw [readFrames, readFrame_runsFrame]
  rw [decodeAll, blocks, hframes]
  rfl

end ZstdFormat

end CqServer
