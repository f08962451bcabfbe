import GoDb.Foundation.SortedMap
import Mathlib.Data.List.Lex

/-! Byte strings. Go's `[]byte` and `string` are both sequences of bytes, and
`bytes.Compare` and `<` on strings order them lexicographically. A `map[string]V` is
kept in the order of its keys, which no loop over it may rely on. -/
namespace GoDb

instance byteOrder : LinearOrder UInt8 where
  le_refl := UInt8.le_refl
  le_trans _ _ _ := UInt8.le_trans
  lt_iff_le_not_ge a b := by
    simp only [UInt8.le_iff_toNat_le,UInt8.lt_iff_toNat_lt]
    omega
  le_antisymm _ _ := UInt8.le_antisymm
  le_total := UInt8.le_total
  toDecidableLE := inferInstance
  toDecidableEq := inferInstance
  toDecidableLT := inferInstance

abbrev Bytes := List UInt8

abbrev GoMap (V : Type) := Foundation.SortedMap Bytes V

/-- The bytes of an ASCII literal. -/
def ascii (text : String) : Bytes := text.toList.map (fun c => UInt8.ofNat c.toNat)

end GoDb
