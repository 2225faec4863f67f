import CelerMem.Core.Stream
import CelerMem.Library.LittleEndian

/-! `compression.hpp`: per-chunk compression as a stream combinator. The snappy
and lz4 libraries, and whether they were found at compile time, are a parameter. -/
namespace CelerMem.Compression

open LittleEndian

inductive Codec where
  | none
  | snappy
  | lz4
  deriving DecidableEq, Repr

/-- What the code uses of the two libraries. An lz4 call that reports failure is
`none`; `LZ4_compressBound` returns an `int`. -/
structure Libraries where
  hasSnappy : Bool
  hasLz4 : Bool
  snappyCompress : Bytes → Bytes
  snappyUncompress : Bytes → Option Bytes
  lz4CompressBound : Nat → Nat
  lz4CompressDefault : Bytes → Nat → Option Bytes
  /-- Source, `compressedSize` and `dstCapacity`. -/
  lz4DecompressSafe : Bytes → Int → Int → Option Bytes

/-- Libraries that keep their laws: decompression undoes compression, and no
compressor writes past its bound. -/
structure Primitives extends Libraries where
  snappy_lossless : ∀ data, snappyUncompress (snappyCompress data) = some data
  snappy_length : ∀ data, (snappyCompress data).length ≤ 32 + data.length + data.length / 6
  lz4_lossless : ∀ data capacity out, lz4CompressDefault data capacity = some out →
    lz4DecompressSafe out out.length data.length = some data
  lz4_length : ∀ data capacity out, lz4CompressDefault data capacity = some out →
    out.length ≤ capacity
  lz4_bound : ∀ size, lz4CompressBound size < 2 ^ 31

instance : Coe Primitives Libraries := ⟨Primitives.toLibraries⟩

/-- A cast to `int`. -/
def toInt (n : Nat) : Int := Int.bmod n (2 ^ 32)

section Blocks

variable (p : Libraries)

def isAvailable : Codec → Bool
  | .none => true
  | .snappy => p.hasSnappy
  | .lz4 => p.hasLz4

def writeLe32 (v : Nat) : Bytes := toBytes 4 v

def readLe32 (src : Bytes) : Nat := ofBytes (src.take 4)

def notAvailable (code : String) : Error :=
  ⟨code, "requested codec not available (compiled without support)"⟩

/-- A frame: the original size and the compressed bytes. -/
def compressBlock (codec : Codec) (data : Bytes) : Result Bytes :=
  if uint32Size - 1 < data.length then .error ⟨"Compress", "input exceeds 4 GiB frame limit"⟩
  else
    match codec with
    | .none => .ok (writeLe32 data.length ++ data)
    | .snappy =>
        if p.hasSnappy then .ok (writeLe32 data.length ++ p.snappyCompress data)
        else .error (notAvailable "Compress")
    | .lz4 =>
        if p.hasLz4 then
          if 2 ^ 31 - 1 < data.length then .error ⟨"Compress", "input exceeds LZ4 int limit"⟩
          else
            match p.lz4CompressDefault data (p.lz4CompressBound data.length) with
            | none => .error ⟨"Compress", "LZ4 compression failed"⟩
            | some out => .ok (writeLe32 data.length ++ out)
        else .error (notAvailable "Compress")

/-- 256 MiB. -/
def maxDecompressSize : Nat := 256 * 1024 * 1024

def decompressBlock (codec : Codec) (data : Bytes) : Result Bytes :=
  if data.length < 4 then .error ⟨"Decompress", "frame too short (< 4 bytes)"⟩
  else
    let originalSize := readLe32 data
    if maxDecompressSize < originalSize then
      .error ⟨"Decompress", "claimed original size exceeds 256 MiB safety limit"⟩
    else
      let body := data.drop 4
      match codec with
      | .none => .ok body
      | .snappy =>
          if p.hasSnappy then
            match p.snappyUncompress body with
            | none => .error ⟨"Decompress", "snappy decompression failed"⟩
            | some output => .ok output
          else .error (notAvailable "Decompress")
      | .lz4 =>
          if p.hasLz4 then
            match p.lz4DecompressSafe body (toInt body.length) (toInt originalSize) with
            | none => .error ⟨"Decompress", "LZ4 decompression failed"⟩
            | some output => .ok output
          else .error (notAvailable "Decompress")

end Blocks

/-! ## Stream combinators -/

variable (p : Primitives)

/-- The pull that both combinators share: one chunk in, one block out. -/
def pullBlock (block : Bytes → Result Bytes) (source : StreamHandle Byte) :
    Option (Pulled Byte × StreamHandle Byte) := do
  let (r, source) ← source.pull
  match r with
  | .error e => some (.error e, source)
  | .ok none => some (.ok none, source)
  | .ok (some chunk) =>
      match block chunk.toList with
      | .error e => some (.error e, source)
      | .ok out => some (.ok (some (Chunk.from out)), source)

structure CompressImpl (p : Primitives) where
  source : StreamHandle Byte
  codec : Codec

def CompressImpl.pull (s : CompressImpl p) : Option (Pulled Byte × CompressImpl p) := do
  let (r, source) ← pullBlock (compressBlock p s.codec) s.source
  some (r, { s with source })

instance : StreamImpl (CompressImpl p) Byte where
  pull := CompressImpl.pull p
  copy s := ⟨s.source.clone, s.codec⟩

structure DecompressImpl (p : Primitives) where
  source : StreamHandle Byte
  codec : Codec

def DecompressImpl.pull (s : DecompressImpl p) : Option (Pulled Byte × DecompressImpl p) := do
  let (r, source) ← pullBlock (decompressBlock p s.codec) s.source
  some (r, { s with source })

instance : StreamImpl (DecompressImpl p) Byte where
  pull := DecompressImpl.pull p
  copy s := ⟨s.source.clone, s.codec⟩

def compress (source : StreamHandle Byte) (codec : Codec) : StreamHandle Byte :=
  makeStreamHandle (⟨source, codec⟩ : CompressImpl p)

def decompress (source : StreamHandle Byte) (codec : Codec) : StreamHandle Byte :=
  makeStreamHandle (⟨source, codec⟩ : DecompressImpl p)

end CelerMem.Compression
