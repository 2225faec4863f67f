import CelerMem.Library.LittleEndian

/-! Data types shared by every layer: bytes, errors, key-value pairs and batch
operations. `std::string` and `std::vector<char>` are byte strings, compared as
unsigned bytes in lexicographic order. -/
namespace CelerMem

abbrev Byte := Fin 256

abbrev Bytes := List Byte

/-- The bytes of a source literal; the sources only use ASCII ones. -/
def ascii (s : String) : Bytes := s.toList.map fun c => Fin.ofNat 256 c.toNat

/-- A name as it is put into the message of an error. -/
def text (b : Bytes) : String := String.ofList (b.map fun c => Char.ofNat c.val)

structure Error where
  code : String
  message : String
  deriving DecidableEq, Repr

/-- `Result<T>`, that is `std::expected<T, Error>`. -/
abbrev Result (α : Type) := Except Error α

abbrev VoidResult := Result Unit

structure KVPair where
  key : Bytes
  value : Bytes
  deriving DecidableEq, Repr

inductive BatchOp.Kind where
  | put
  | del
  deriving DecidableEq, Repr

structure BatchOp where
  kind : BatchOp.Kind
  cfName : Bytes
  key : Bytes
  value : Option Bytes
  deriving DecidableEq, Repr

end CelerMem
