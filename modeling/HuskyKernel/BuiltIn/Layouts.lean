import HuskyKernel.System.Bytes

/-!
# BuiltIn/Layouts — the keyboard layouts

The two tables give each key a character by the layout that is active.  A row lists the characters
of the 48 keys in one order; the rows of three of the five layouts were never written, and are
zero.  A letter outside ASCII is a constant of two characters, of which a `char` keeps the last.
-/

namespace HuskyKernel

/-- `KeyboardLayout`. -/
inductive KeyboardLayout
  | us | de | fr | es | ru
deriving DecidableEq, Repr

/-- The keys that have an initialiser, in the order of the rows. -/
def layoutKeys : List Byte := str "1234567890-=qwertyuiop[]asdfghjkl;'`\\zxcvbnm,./ "

/-- A row of `us_ascii_to_layout`. -/
def usAsciiToLayout : KeyboardLayout → List Byte
  | .us => layoutKeys
  | .de => str "1234567890" ++ [0x9f, 0xb4] ++ str "qwertzuiop" ++ [0xbc] ++ str "+asdfghjkl"
      ++ [0xb6, 0xa4] ++ str "^#yxcvbnm,.- "
  | .fr | .es | .ru => []

/-- A row of `shifted_layout`. -/
def shiftedLayout : KeyboardLayout → List Byte
  | .us => str "!@#$%^&*()_+QWERTYUIOP\x7b\x7dASDFGHJKL:\"~|ZXCVBNM<>? "
  | .de => str "!\"" ++ [0xa7] ++ str "$%&/()=?`QWERTZUIOP" ++ [0x9c] ++ str "*ASDFGHJKL"
      ++ [0x96, 0x84, 0xb0] ++ str "'YXCVBNM;:_ "
  | .fr | .es | .ru => []

/-- The entry `row[key]`: zero where nothing was written. -/
def layoutEntry (row : List Byte) (key : Byte) : Byte := ((layoutKeys.zip row).lookup key).getD 0

/-- An entry is zero or a character of its row. -/
theorem layoutEntry_mem (row : List Byte) (key : Byte) :
    layoutEntry row key = 0 ∨ layoutEntry row key ∈ row := by
  rw [layoutEntry]
  cases h : (layoutKeys.zip row).lookup key with
  | none => exact Or.inl rfl
  | some c =>
    obtain ⟨l₁, l₂, hzip, -⟩ := List.lookup_eq_some_iff.mp h
    have hmem : (key, c) ∈ layoutKeys.zip row := hzip ▸ by simp
    exact Or.inr (List.of_mem_zip hmem).2

/-- No row has a control character. -/
theorem space_le_of_mem (layout : KeyboardLayout) :
    (∀ c ∈ usAsciiToLayout layout, chr ' ' ≤ c) ∧ ∀ c ∈ shiftedLayout layout, chr ' ' ≤ c := by
  cases layout <;> decide +kernel

/-- **The character of a key is zero or no control character.** -/
theorem layoutEntry_cases (shifted : Bool) (layout : KeyboardLayout) (key : Byte) :
    layoutEntry ((if shifted then shiftedLayout else usAsciiToLayout) layout) key = 0 ∨
      chr ' ' ≤ layoutEntry ((if shifted then shiftedLayout else usAsciiToLayout) layout) key := by
  refine (layoutEntry_mem _ key).imp_right fun hmem => ?_
  cases shifted with
  | false => exact (space_le_of_mem layout).1 _ hmem
  | true => exact (space_le_of_mem layout).2 _ hmem

end HuskyKernel
