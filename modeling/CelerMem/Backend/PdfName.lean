import CelerMem.Core.Types
import CelerMem.Library.Escape
import Mathlib

/-! The names of a PDF: a slash, and then the bytes of a key, of which the unsafe ones are
written as a hash and two hexadecimal digits. -/
namespace CelerMem

/-- The byte of a character literal. -/
def charByte (c : Char) : Byte := Fin.ofNat 256 c.toNat

def isSafeNameChar (c : Byte) : Bool :=
  (charByte 'a' ≤ c && c ≤ charByte 'z') || (charByte 'A' ≤ c && c ≤ charByte 'Z') ||
    (charByte '0' ≤ c && c ≤ charByte '9') || c == charByte '_' || c == charByte '-' ||
    c == charByte '.'

/-- `hex`, which ends in a null character. -/
def hexDigit (n : Nat) : Byte := (ascii "0123456789ABCDEF").getD n 0

/-- There is none where the sources return `-1`. -/
def hexNibble (c : Byte) : Option Nat :=
  if charByte '0' ≤ c && c ≤ charByte '9' then some (c.val - (charByte '0').val)
  else if charByte 'A' ≤ c && c ≤ charByte 'F' then some (c.val - (charByte 'A').val + 10)
  else if charByte 'a' ≤ c && c ≤ charByte 'f' then some (c.val - (charByte 'a').val + 10)
  else none

/-- The two digits of a byte. -/
def hexPair (c : Byte) : Byte × Byte := (hexDigit (c.val >>> 4), hexDigit (c.val &&& 0x0F))

/-- The byte of two digits. -/
def hexByte (high low : Byte) : Option Byte :=
  match hexNibble high, hexNibble low with
  | some hi, some lo => some (Fin.ofNat 256 (hi <<< 4 ||| lo))
  | _, _ => none

theorem hexNibble_hexDigit {n : Nat} (h : n < 16) : hexNibble (hexDigit n) = some n := by
  have hAll : ∀ n : Fin 16, hexNibble (hexDigit n.val) = some n.val := by decide
  exact hAll ⟨n, h⟩

def isHexDigit (c : Byte) : Bool :=
  (charByte '0' ≤ c && c ≤ charByte '9') || (charByte 'A' ≤ c && c ≤ charByte 'F')

theorem isHexDigit_hexDigit {n : Nat} (h : n < 16) : isHexDigit (hexDigit n) = true := by
  have hAll : ∀ n : Fin 16, isHexDigit (hexDigit n.val) = true := by decide
  exact hAll ⟨n, h⟩

theorem high_lt (c : Byte) : c.val >>> 4 < 16 := by
  rw [Nat.shiftRight_eq_div_pow]
  omega

theorem low_lt (c : Byte) : c.val &&& 0x0F < 16 :=
  Nat.and_lt_two_pow c.val (show 0x0F < 2 ^ 4 by decide)

theorem hexByte_hexPair (c : Byte) : hexByte (hexPair c).1 (hexPair c).2 = some c := by
  have hValue : c.val >>> 4 <<< 4 ||| (c.val &&& 0x0F) = c.val := by
    rw [← Nat.shiftLeft_add_eq_or_of_lt (low_lt c), Nat.shiftLeft_eq, Nat.shiftRight_eq_div_pow,
      show (0x0F : Nat) = 2 ^ 4 - 1 from rfl, Nat.and_two_pow_sub_one_eq_mod]
    exact Nat.div_add_mod' c.val (2 ^ 4)
  rw [hexByte, hexPair, hexNibble_hexDigit (high_lt c), hexNibble_hexDigit (low_lt c)]
  dsimp only
  rw [hValue]
  exact congrArg some (Fin.ofNat_val_eq_self c)

/-- The loops of the two functions below. -/
def pdfNameScheme : Escape.Scheme Byte where
  safe := isSafeNameChar
  mark := charByte '#'
  digits := hexPair
  value := hexByte
  mark_unsafe := by decide
  value_digits := hexByte_hexPair

def encodePdfName (key : Bytes) : Bytes := charByte '/' :: pdfNameScheme.encode key

def decodePdfName (name : Bytes) : Bytes :=
  pdfNameScheme.decode (if name.head? = some (charByte '/') then name.tail else name)

@[simp] theorem decodePdfName_encodePdfName (key : Bytes) :
    decodePdfName (encodePdfName key) = key := by
  rw [decodePdfName, encodePdfName, List.head?_cons, if_pos rfl, List.tail_cons,
    Escape.Scheme.decode_encode]

theorem encodePdfName_injective : Function.Injective encodePdfName :=
  List.cons_injective.comp pdfNameScheme.encode_injective

/-- Names are read back as the keys they were made from, different keys have different names,
and a name is a slash before safe characters and escapes. -/
theorem pdf_name_codec :
    (∀ key, decodePdfName (encodePdfName key) = key) ∧ Function.Injective encodePdfName ∧
    ∀ key, ∃ text, encodePdfName key = charByte '/' :: text ∧
      pdfNameScheme.Text (isHexDigit · = true) text := by
  refine ⟨decodePdfName_encodePdfName, encodePdfName_injective, ?_⟩
  intro key
  refine ⟨pdfNameScheme.encode key, rfl, Escape.Scheme.encode_text ?_ key⟩
  intro c
  exact ⟨isHexDigit_hexDigit (high_lt c), isHexDigit_hexDigit (low_lt c)⟩

end CelerMem
