import CelerMem.Library.Framing
import CelerMem.Materialization.StoreRef

/-! The keys of joins on several columns: the encoded parts one after the other,
each behind its length in 32 bits, with an FNV-1a hash kept beside the bytes. -/
namespace CelerMem.Materialization

open Framing

def fnv1a64 (bytes : Bytes) : UInt64 :=
  bytes.foldl (fun h c => (h ^^^ UInt64.ofNat c.val) * 0x100000001b3) 0xcbf29ce484222325

structure Key where
  bytes : Bytes
  hash : UInt64
  deriving DecidableEq

structure CompositeKey where
  bytes : Bytes := []
  hash : UInt64 := 0
  deriving DecidableEq

namespace CompositeKey

/-- One argument of `make`, of any type that has a codec. -/
structure Part where
  {T : Type}
  [codec : Codec T]
  value : T

namespace Part

def encode (p : Part) : Result Bytes := p.codec.encode p.value

/-- A `std::string` as it is. -/
def ofString (value : Bytes) : Part := ⟨value⟩

@[simp] theorem encode_ofString (value : Bytes) : (ofString value).encode = .ok value := rfl

end Part

/-- `append_one`: nothing is appended any more once a part has failed. The length
is cast to 32 bits. -/
def appendOne (out : Result Bytes) (p : Part) : Result Bytes :=
  match out with
  | .error e => .error e
  | .ok bytes =>
      match p.encode with
      | .error e => .error e
      | .ok enc => .ok (bytes ++ frame 4 enc)

def make (parts : List Part) : Result CompositeKey :=
  match parts.foldl appendOne (.ok []) with
  | .error e => .error e
  | .ok bytes => .ok ⟨bytes, fnv1a64 bytes⟩

def toKey (k : CompositeKey) : Key := ⟨k.bytes, k.hash⟩

theorem foldl_appendOne_error (parts : List Part) (e : Error) :
    parts.foldl appendOne (.error e) = .error e := by
  induction parts with
  | nil => rfl
  | cons p parts ih => exact ih

/-- What the parts of a list are appended as. -/
theorem foldl_appendOne {parts : List Part} {out bytes : Bytes} :
    parts.foldl appendOne (.ok out) = .ok bytes ↔
      ∃ encoded, List.Forall₂ (fun p enc => Part.encode p = .ok enc) parts encoded ∧
        bytes = out ++ encoded.flatMap (frame 4) := by
  induction parts generalizing out with
  | nil =>
      constructor
      · intro h
        obtain rfl := Except.ok.inj h
        exact ⟨[], .nil, (List.append_nil _).symm⟩
      · rintro ⟨_, hNil, rfl⟩
        cases hNil
        rw [List.flatMap_nil, List.append_nil]
        rfl
  | cons p parts ih =>
      rw [List.foldl_cons]
      cases hPart : p.encode with
      | error e =>
          have hStep : appendOne (.ok out) p = .error e := by rw [appendOne, hPart]
          rw [hStep, foldl_appendOne_error]
          constructor
          · intro h
            cases h
          · rintro ⟨_, hEncoded, _⟩
            cases hEncoded with
            | cons hHead _ => cases hPart.symm.trans hHead
      | ok enc =>
          have hStep : appendOne (.ok out) p = .ok (out ++ frame 4 enc) := by
            rw [appendOne, hPart]
          rw [hStep, ih]
          constructor
          · rintro ⟨encoded, hEncoded, rfl⟩
            exact ⟨enc :: encoded, .cons hPart hEncoded, by
              rw [List.flatMap_cons, List.append_assoc]⟩
          · rintro ⟨_, hEncoded, rfl⟩
            cases hEncoded with
            | cons hHead hTail =>
                obtain rfl := Except.ok.inj (hPart.symm.trans hHead)
                exact ⟨_, hTail, by rw [List.flatMap_cons, List.append_assoc]⟩

/-- `make` succeeds when every part can be encoded, and its bytes are their frames. -/
theorem make_iff {parts : List Part} {k : CompositeKey} :
    make parts = .ok k ↔
      ∃ encoded, List.Forall₂ (fun p enc => Part.encode p = .ok enc) parts encoded ∧
        k = ⟨encoded.flatMap (frame 4), fnv1a64 (encoded.flatMap (frame 4))⟩ := by
  rw [make]
  cases hBytes : parts.foldl appendOne (.ok []) with
  | error e =>
      constructor
      · intro h
        cases h
      · rintro ⟨encoded, hEncoded, _⟩
        have hOk := foldl_appendOne.mpr ⟨encoded, hEncoded, (List.nil_append _).symm⟩
        cases hBytes.symm.trans hOk
  | ok bytes =>
      obtain ⟨encoded, hEncoded, rfl⟩ := foldl_appendOne.mp hBytes
      constructor
      · intro h
        obtain rfl := Except.ok.inj h
        exact ⟨encoded, hEncoded, rfl⟩
      · rintro ⟨others, hOthers, rfl⟩
        have hSame := foldl_appendOne.mpr ⟨others, hOthers, (List.nil_append _).symm⟩
        rw [Except.ok.inj (hBytes.symm.trans hSame)]

/-- The cached hash is a function of the bytes, so that keys agree when their bytes do. -/
theorem toKey_eq_iff {ps qs : List Part} {k₁ k₂ : CompositeKey} (hMake₁ : make ps = .ok k₁)
    (hMake₂ : make qs = .ok k₂) : k₁.toKey = k₂.toKey ↔ k₁.bytes = k₂.bytes := by
  obtain ⟨xs, _, rfl⟩ := make_iff.mp hMake₁
  obtain ⟨ys, _, rfl⟩ := make_iff.mp hMake₂
  constructor
  · exact congrArg Key.bytes
  · intro hBytes
    dsimp only at hBytes
    rw [hBytes]

theorem encode_strings (parts : List Bytes) :
    List.Forall₂ (fun p enc => Part.encode p = .ok enc) (parts.map Part.ofString) parts := by
  rw [List.forall₂_map_left_iff]
  exact List.forall₂_same.mpr fun value _ => Part.encode_ofString value

theorem make_strings (parts : List Bytes) :
    make (parts.map Part.ofString) =
      .ok ⟨parts.flatMap (frame 4), fnv1a64 (parts.flatMap (frame 4))⟩ :=
  make_iff.mpr ⟨parts, encode_strings parts, rfl⟩

/-- Parts of any types with equal keys have equal encodings, as long as the 32 bits
of the length hold each. -/
theorem encodings_of_make {ps qs : List Part} {xs ys : List Bytes} {k₁ k₂ : CompositeKey}
    (hxs : List.Forall₂ (fun p enc => Part.encode p = .ok enc) ps xs)
    (hys : List.Forall₂ (fun p enc => Part.encode p = .ok enc) qs ys)
    (hSmall₁ : ∀ part ∈ xs, part.length < 2 ^ 32) (hSmall₂ : ∀ part ∈ ys, part.length < 2 ^ 32)
    (hMake₁ : make ps = .ok k₁) (hMake₂ : make qs = .ok k₂) (hBytes : k₁.bytes = k₂.bytes) :
    xs = ys := by
  obtain rfl := Except.ok.inj (hMake₁.symm.trans (make_iff.mpr ⟨xs, hxs, rfl⟩))
  obtain rfl := Except.ok.inj (hMake₂.symm.trans (make_iff.mpr ⟨ys, hys, rfl⟩))
  exact flatMap_frame_injective (by decide) hSmall₁ hSmall₂ hBytes

/-- Two lists of byte strings have a key each, and the keys have the same bytes only
when the lists are the same. -/
theorem make_injective (xs ys : List Bytes) (hxs : ∀ part ∈ xs, part.length < 2 ^ 32)
    (hys : ∀ part ∈ ys, part.length < 2 ^ 32) :
    ∃ k₁ k₂, make (xs.map Part.ofString) = .ok k₁ ∧ make (ys.map Part.ofString) = .ok k₂ ∧
      (k₁.bytes = k₂.bytes → xs = ys) :=
  ⟨_, _, make_strings xs, make_strings ys,
    encodings_of_make (encode_strings xs) (encode_strings ys) hxs hys (make_strings xs)
      (make_strings ys)⟩

/-- The second list splits the bytes of the first at a place that looks like a length. -/
theorem make_injective_lookalike :
    ∃ k₁ k₂, make ([ascii "a", [1, 0, 0, 0]].map Part.ofString) = .ok k₁ ∧
      make ([ascii "a" ++ [4, 0, 0, 0, 1, 0, 0, 0]].map Part.ofString) = .ok k₂ ∧
      (k₁.bytes = k₂.bytes → [ascii "a", [1, 0, 0, 0]] = [ascii "a" ++ [4, 0, 0, 0, 1, 0, 0, 0]]) :=
  make_injective _ _ (by decide) (by decide)

end CompositeKey

end CelerMem.Materialization
