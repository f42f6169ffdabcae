/-!
# Texts and bytes

A file holds bytes.  Some bytes are the text that has them in UTF-8; all others
are one up to some length only.
-/

namespace ExactSpend.Text

/-- The bytes of a text. -/
def bytes (text : String) : List UInt8 :=
  text.toByteArray.data.toList

/-- The text of some bytes, if they are the bytes of one. -/
def ofBytes? (bytes : List UInt8) : Option String :=
  String.fromUTF8? ⟨bytes.toArray⟩

/-- The greatest number of bytes at the beginning that are those of a text. -/
def validLength (bytes : List UInt8) : Nat :=
  let isText (n : Nat) : Bool := (ofBytes? (bytes.take n)).isSome
  ((List.range (bytes.length + 1)).reverse.find? isText).getD 0

@[simp] theorem bytes_empty : bytes "" = [] := rfl

theorem ofBytes?_bytes (text : String) : ofBytes? (bytes text) = some text := by
  rw [ofBytes?, bytes, String.fromUTF8?]
  exact dif_pos text.isValidUTF8

theorem bytes_injective {first second : String}
    (h : bytes first = bytes second) : first = second := by
  have hsome := ofBytes?_bytes first
  rw [h, ofBytes?_bytes] at hsome
  exact (Option.some.inj hsome).symm

theorem bytes_eq_nil_iff {text : String} : bytes text = [] ↔ text = "" :=
  ⟨fun h => bytes_injective h, fun h => h ▸ rfl⟩

theorem bytes_eq_flatMap (text : String) :
    bytes text = text.toList.flatMap String.utf8EncodeChar := by
  rw [bytes, ← String.utf8Encode_toList]
  simp [List.utf8Encode]

theorem bytes_append (first second : String) :
    bytes (first ++ second) = bytes first ++ bytes second := by
  rw [bytes_eq_flatMap, String.toList_append, List.flatMap_append,
    ← bytes_eq_flatMap, ← bytes_eq_flatMap]

/-- A byte with its first bit set is none of ASCII. -/
theorem le_or {mark : UInt8} (h : 128 ≤ mark) (b : UInt8) :
    128 ≤ b ||| mark := by
  rw [UInt8.le_iff_toNat_le] at h ⊢
  rw [UInt8.toNat_or]
  exact Nat.le_trans h Nat.right_le_or

theorem encodeChar_ascii {c : Char} (h : c.val ≤ 127) :
    String.utf8EncodeChar c = [c.toUInt8] :=
  String.utf8EncodeChar_eq_singleton (Char.utf8Size_eq_one_iff.mpr h)

theorem le_of_mem_encodeChar {c : Char} (h : ¬c.val ≤ 127) {b : UInt8}
    (hb : b ∈ String.utf8EncodeChar c) : 128 ≤ b := by
  rcases c.utf8Size_eq with hsize | hsize | hsize | hsize
  · exact absurd (Char.utf8Size_eq_one_iff.mp hsize) h
  · rw [String.utf8EncodeChar_eq_cons_cons hsize] at hb
    simp only [List.mem_cons, List.not_mem_nil, or_false] at hb
    rcases hb with rfl | rfl <;> exact le_or (by decide) _
  · rw [String.utf8EncodeChar_eq_cons_cons_cons hsize] at hb
    simp only [List.mem_cons, List.not_mem_nil, or_false] at hb
    rcases hb with rfl | rfl | rfl <;> exact le_or (by decide) _
  · rw [String.utf8EncodeChar_eq_cons_cons_cons_cons hsize] at hb
    simp only [List.mem_cons, List.not_mem_nil, or_false] at hb
    rcases hb with rfl | rfl | rfl | rfl <;> exact le_or (by decide) _

theorem toNat_toUInt8 {c : Char} (h : c.val ≤ 127) :
    c.toUInt8.toNat = c.val.toNat := by
  rw [UInt32.le_iff_toNat_le] at h
  exact Nat.mod_eq_of_lt (Nat.lt_of_le_of_lt h (by decide))

/-- A character of ASCII can be told by its byte wherever that stands. -/
theorem toUInt8_mem_encodeChar {a c : Char} (ha : a.val ≤ 127) :
    a.toUInt8 ∈ String.utf8EncodeChar c ↔ c = a := by
  constructor
  · intro hmem
    by_cases hc : c.val ≤ 127
    · rw [encodeChar_ascii hc, List.mem_singleton] at hmem
      have hval := congrArg UInt8.toNat hmem
      rw [toNat_toUInt8 ha, toNat_toUInt8 hc] at hval
      exact (Char.ext (UInt32.toNat_inj.mp hval)).symm
    · have hle := le_of_mem_encodeChar hc hmem
      rw [UInt8.le_iff_toNat_le, toNat_toUInt8 ha] at hle
      rw [UInt32.le_iff_toNat_le] at ha
      exact absurd (Nat.le_trans hle ha) (by decide)
  · rintro rfl
    rw [encodeChar_ascii ha]
    exact List.mem_singleton.mpr rfl

theorem toUInt8_mem_bytes {a : Char} (ha : a.val ≤ 127) {text : String} :
    a.toUInt8 ∈ bytes text ↔ a ∈ text.toList := by
  rw [bytes_eq_flatMap, List.mem_flatMap]
  simp only [toUInt8_mem_encodeChar ha, exists_eq_right]

end ExactSpend.Text
