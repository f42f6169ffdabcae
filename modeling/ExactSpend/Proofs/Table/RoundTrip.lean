import Mathlib.Data.List.Infix
import ExactSpend.Table.Reader
import ExactSpend.Table.Writer

/-!
# Reading what was written

A reader finds in a written table the records that were written, whatever
characters their fields hold.  The scanner is followed through a line field by
field; where it stands is told without the places, which no record depends on.
A character outside ASCII shows no byte that the scanner could take for a comma,
a quote or a line end.
-/

namespace ExactSpend.Table

variable {standing : Standing} {field : List UInt8} {fields : List (List UInt8)}
variable {records : List (List (List UInt8))} {s : Scanner} {b : UInt8}

/-! ## Bytes of written fields -/

/-- A byte that is written without quotes. -/
def IsPlain (b : UInt8) : Prop :=
  b ≠ ','.toUInt8 ∧ b ≠ '"'.toUInt8 ∧ isLineEnd b = false

/-- Some bytes with every quote doubled. -/
def doubled (bytes : List UInt8) : List UInt8 :=
  bytes.flatMap fun b => if b = '"'.toUInt8 then [b, b] else [b]

theorem isPlain_of_mem {text : String} (h : needsQuotes text.toList = false)
    (hb : b ∈ Text.bytes text) : IsPlain b := by
  have hnot : ∀ c ∈ text.toList, c ≠ ',' ∧ c ≠ '"' ∧ c ≠ '\n' ∧ c ≠ '\r' := by
    simpa [needsQuotes] using h
  have hne {a : Char} (ha : a.val ≤ 127) (hmem : a ∉ text.toList) :
      b ≠ a.toUInt8 :=
    fun heq => hmem ((Text.toUInt8_mem_bytes ha).mp (heq ▸ hb))
  refine ⟨hne (by decide) fun hmem => (hnot _ hmem).1 rfl,
    hne (by decide) fun hmem => (hnot _ hmem).2.1 rfl, ?_⟩
  have hlf := hne (a := '\n') (by decide) fun hmem => (hnot _ hmem).2.2.1 rfl
  have hcr := hne (a := '\r') (by decide) fun hmem => (hnot _ hmem).2.2.2 rfl
  simp [isLineEnd, hlf, hcr]

theorem encodeChar_doubled (c : Char) :
    (if c = '"' then ['"', '"'] else [c]).flatMap String.utf8EncodeChar =
      doubled (String.utf8EncodeChar c) := by
  by_cases hc : c = '"'
  · rw [if_pos hc, hc]
    rfl
  · -- No byte of the character is a quote, so none of them is doubled.
    have hne : ∀ b ∈ String.utf8EncodeChar c, b ≠ '"'.toUInt8 := fun b hb heq =>
      hc ((Text.toUInt8_mem_encodeChar (by decide)).mp (heq ▸ hb))
    rw [if_neg hc, List.flatMap_singleton, doubled,
      List.flatMap_congr fun b hb => if_neg (hne b hb)]
    exact (List.flatMap_singleton' _).symm

theorem bytes_encode (text : String) :
    Text.bytes (encode text) =
      if needsQuotes text.toList then
        '"'.toUInt8 :: doubled (Text.bytes text) ++ ['"'.toUInt8]
      else Text.bytes text := by
  rw [encode]
  split
  · rw [Text.bytes_eq_flatMap, Text.bytes_eq_flatMap, String.toList_ofList,
      quoted, List.flatMap_append, List.flatMap_cons, List.flatMap_assoc,
      doubled, List.flatMap_assoc]
    simp only [encodeChar_doubled]
    rfl
  · rfl

theorem intercalate_cons (sep first : List Char) (rest : List (List Char)) :
    sep.intercalate (first :: rest) = first ++ rest.flatMap (sep ++ ·) := by
  induction rest generalizing first with
  | nil => simp
  | cons second rest ih =>
      rw [List.intercalate_cons_cons, ih]
      simp

/-- What follows the first field of a line. -/
def lineRest (texts : List String) : List UInt8 :=
  texts.flatMap (fun text => ','.toUInt8 :: Text.bytes (encode text)) ++
    ['\n'.toUInt8]

/-- A line is its first field, the others behind commas, and a line end. -/
theorem bytes_line {text : String} {texts : List String}
    (h : ¬(text = "" ∧ texts = [])) :
    Text.bytes (line (text :: texts)) =
      Text.bytes (encode text) ++ lineRest texts := by
  have hline : line (text :: texts) =
      ",".intercalate ((text :: texts).map encode) ++ "\n" := by
    rw [line]
    exact fun heq => h (List.cons.inj heq)
  have hcomma : ∀ text : String, (",".toList ++ text.toList).flatMap
      String.utf8EncodeChar = ','.toUInt8 :: Text.bytes text := by
    intro text
    rw [List.flatMap_append, ← Text.bytes_eq_flatMap text]
    rfl
  rw [hline, Text.bytes_append, Text.bytes_eq_flatMap,
    String.toList_intercalate, List.map_cons, List.map_cons, intercalate_cons,
    List.flatMap_append, ← Text.bytes_eq_flatMap, List.append_assoc,
    List.flatMap_assoc, List.map_map, List.flatMap_map]
  simp only [Function.comp_apply, hcomma]
  rfl

/-! ## Scanners -/

/-- What a scanner has read: the bytes of the field, the fields of the record
and the records before it. -/
structure Scanner.Reads (s : Scanner) (standing : Standing) (field : List UInt8)
    (fields : List (List UInt8))
    (records : List (List (List UInt8))) : Prop where
  standing_eq : s.standing = standing
  field_eq : s.field.reverse = field
  fields_eq : s.fields.reverse = fields
  records_eq : s.rows.toList.map (·.fields) = records

/-- Where a scanner stands behind a written field. -/
def Standing.behind (standing : Standing) (text : String) : Standing :=
  if needsQuotes text.toList then .quoteSeen
  else if Text.bytes text = [] then standing else .bare

theorem Standing.behind_ne_quoted {text : String} (h : standing ≠ .quoted) :
    standing.behind text ≠ .quoted := by
  unfold behind
  split
  · decide
  · split
    · exact h
    · decide

theorem Standing.behind_ne_between {text : String}
    (h : standing ≠ .between ∨ text ≠ "") :
    standing.behind text ≠ .between := by
  unfold behind
  split
  · decide
  · split
    · rename_i hempty
      exact h.resolve_right (not_not.mpr (Text.bytes_eq_nil_iff.mp hempty))
    · decide

namespace Scanner.Reads

/-! ## Single bytes -/

theorem step_comma (h : s.Reads standing field fields records)
    (hopen : standing ≠ .quoted) :
    (s.step ','.toUInt8).Reads .fieldStart [] (fields ++ [field]) records := by
  obtain ⟨rfl, rfl, rfl, rfl⟩ := h
  cases hstanding : s.standing with
  | quoted => exact absurd hstanding hopen
  | _ => constructor <;>
      simp +decide [step, advance, hstanding, unquoted, endField]

theorem step_lineFeed (h : s.Reads standing field fields records)
    (hopen : standing ≠ .quoted) (hbegun : standing ≠ .between) :
    (s.step '\n'.toUInt8).Reads .between [] []
      (records ++ [fields ++ [field]]) := by
  obtain ⟨rfl, rfl, rfl, rfl⟩ := h
  cases hstanding : s.standing with
  | quoted => exact absurd hstanding hopen
  | between => exact absurd hstanding hbegun
  | _ => constructor <;>
      simp +decide [step, advance, hstanding, unquoted, endField, endRecord]

theorem step_plain (h : s.Reads standing field fields records)
    (hopen : standing ≠ .quoted) (hunquoted : standing ≠ .quoteSeen)
    (hb : IsPlain b) :
    (s.step b).Reads .bare (field ++ [b]) fields records := by
  obtain ⟨rfl, rfl, rfl, rfl⟩ := h
  obtain ⟨hcomma, hquote, hend⟩ := hb
  cases hstanding : s.standing with
  | quoted => exact absurd hstanding hopen
  | quoteSeen => exact absurd hstanding hunquoted
  | _ => constructor <;>
      simp [step, advance, hstanding, unquoted, keep, hcomma, hquote, hend]

theorem step_open (h : s.Reads standing field fields records)
    (hstart : standing = .between ∨ standing = .fieldStart) :
    (s.step '"'.toUInt8).Reads .quoted field fields records := by
  obtain ⟨rfl, rfl, rfl, rfl⟩ := h
  rcases hstart with hstanding | hstanding <;>
    constructor <;> simp +decide [step, advance, hstanding]

theorem step_quoted (h : s.Reads .quoted field fields records)
    (hb : b ≠ '"'.toUInt8) :
    (s.step b).Reads .quoted (field ++ [b]) fields records := by
  obtain ⟨hstanding, rfl, rfl, rfl⟩ := h
  constructor <;> simp [step, advance, hstanding, keep, hb]

theorem step_quote (h : s.Reads .quoted field fields records) :
    (s.step '"'.toUInt8).Reads .quoteSeen field fields records := by
  obtain ⟨hstanding, rfl, rfl, rfl⟩ := h
  constructor <;> simp [step, advance, hstanding]

theorem step_doubled (h : s.Reads .quoteSeen field fields records) :
    (s.step '"'.toUInt8).Reads .quoted (field ++ ['"'.toUInt8]) fields
      records := by
  obtain ⟨hstanding, rfl, rfl, rfl⟩ := h
  constructor <;> simp [step, advance, hstanding, keep]

/-! ## Fields -/

theorem foldl_plain (bytes : List UInt8) (hplain : ∀ b ∈ bytes, IsPlain b)
    (h : s.Reads standing field fields records) (hopen : standing ≠ .quoted)
    (hunquoted : standing ≠ .quoteSeen) :
    (bytes.foldl step s).Reads (if bytes = [] then standing else .bare)
      (field ++ bytes) fields records := by
  induction bytes using List.reverseRecOn with
  | nil => simpa using h
  | append_singleton bytes b ih =>
      have hbefore := ih fun b hb => hplain b (List.mem_append_left _ hb)
      have hb : IsPlain b := hplain b (by simp)
      have hopen' :
          (if bytes = [] then standing else .bare) ≠ Standing.quoted := by
        split
        · exact hopen
        · decide
      have hunquoted' :
          (if bytes = [] then standing else .bare) ≠ Standing.quoteSeen := by
        split
        · exact hunquoted
        · decide
      rw [List.foldl_concat, if_neg (by simp), ← List.append_assoc]
      exact hbefore.step_plain hopen' hunquoted' hb

theorem foldl_doubled (bytes : List UInt8)
    (h : s.Reads .quoted field fields records) :
    ((doubled bytes).foldl step s).Reads .quoted (field ++ bytes) fields
      records := by
  rw [doubled]
  induction bytes using List.reverseRecOn with
  | nil => simpa using h
  | append_singleton bytes b ih =>
      rw [List.flatMap_append, List.foldl_append, List.flatMap_singleton,
        ← List.append_assoc]
      by_cases hb : b = '"'.toUInt8
      · rw [if_pos hb, hb]
        exact ih.step_quote.step_doubled
      · rw [if_neg hb]
        exact ih.step_quoted hb

/-- A written field is read as it was, up to its end. -/
theorem foldl_encode (text : String) (h : s.Reads standing [] fields records)
    (hstart : standing = .between ∨ standing = .fieldStart) :
    ((Text.bytes (encode text)).foldl step s).Reads (standing.behind text)
      (Text.bytes text) fields records := by
  rw [bytes_encode, Standing.behind]
  cases hquotes : needsQuotes text.toList with
  | true =>
      rw [if_pos rfl, if_pos rfl, List.foldl_append]
      exact ((h.step_open hstart).foldl_doubled (Text.bytes text)).step_quote
  | false =>
      rw [if_neg Bool.false_ne_true, if_neg Bool.false_ne_true]
      refine h.foldl_plain (Text.bytes text)
        (fun b hb => isPlain_of_mem hquotes hb) ?_ ?_ <;>
          rcases hstart with rfl | rfl <;> decide

/-! ## Lines -/

/-- The fields that follow in a line are read, and the record ends with it. -/
theorem foldl_lineRest (texts : List String) :
    ∀ {s : Scanner} {standing : Standing} {field : List UInt8}
        {fields : List (List UInt8)},
      s.Reads standing field fields records → standing ≠ .quoted →
      (texts = [] → standing ≠ .between) →
        ((lineRest texts).foldl step s).Reads .between [] []
          (records ++ [fields ++ [field] ++ texts.map Text.bytes]) := by
  induction texts with
  | nil =>
      intro s standing field fields h hopen hbegun
      simpa [lineRest] using h.step_lineFeed hopen (hbegun rfl)
  | cons text texts ih =>
      intro s standing field fields h hopen _
      have hfield := (h.step_comma hopen).foldl_encode text (Or.inr rfl)
      have hrest := ih hfield (Standing.behind_ne_quoted (by decide))
        fun _ => Standing.behind_ne_between (Or.inl (by decide))
      simpa [lineRest] using hrest

/-- A written line is read as the record that was written. -/
theorem foldl_line {texts : List String} (hne : texts ≠ [])
    (h : s.Reads .between [] [] records) :
    ((Text.bytes (line texts)).foldl step s).Reads .between [] []
      (records ++ [texts.map Text.bytes]) := by
  obtain ⟨text, texts, rfl⟩ := List.exists_cons_of_ne_nil hne
  by_cases halone : text = "" ∧ texts = []
  · obtain ⟨rfl, rfl⟩ := halone
    exact (h.step_open (Or.inl rfl)).step_quote.step_lineFeed (by decide)
      (by decide)
  · have hfield := h.foldl_encode text (Or.inl rfl)
    have hrest := hfield.foldl_lineRest texts
      (Standing.behind_ne_quoted (by decide)) fun hnil =>
        Standing.behind_ne_between (Or.inr fun hempty => halone ⟨hempty, hnil⟩)
    rw [bytes_line halone, List.foldl_append]
    simpa using hrest

end Scanner.Reads

/-! ## Tables -/

/-- A table that does not begin as a byte order mark does is read from its first
byte. -/
theorem rows_eq {bytes : List UInt8} (h : bytes.head? ≠ some 0xEF) :
    rows bytes = (bytes.foldl Scanner.step {}).finish := by
  rw [rows]
  rintro rest rfl
  exact h rfl

theorem foldl_lines (written : List (List String))
    (hne : ∀ texts ∈ written, texts ≠ [])
    (h : s.Reads .between [] [] records) :
    ((Text.bytes (String.join (written.map line))).foldl Scanner.step s).Reads
      .between [] [] (records ++ written.map (·.map Text.bytes)) := by
  induction written generalizing s records with
  | nil => simpa using h
  | cons texts written ih =>
      have hrest := ih
        (fun texts htexts => hne texts (List.mem_cons_of_mem _ htexts))
        (h.foldl_line (hne texts List.mem_cons_self))
      rw [List.map_cons, String.join_cons, Text.bytes_append, List.foldl_append]
      simpa using hrest

/-- A record whose fields are the bytes of some texts is read as these texts. -/
theorem Row.texts_eq {row : Row} {fields : List String}
    (h : row.fields = fields.map Text.bytes) : row.texts = .ok fields := by
  rw [texts, h]
  clear h
  generalize 0 = index
  induction fields generalizing index with
  | nil => rfl
  | cons text fields ih =>
      rw [List.map_cons, List.zipIdx_cons, List.mapM_cons, ih]
      dsimp only
      rw [Text.ofBytes?_bytes]
      rfl

/-- The records of a table, if all their fields are texts. -/
def records? (bytes : List UInt8) : Option (List (List String)) :=
  (rows bytes).mapM (·.texts.toOption)

theorem records?_eq {bytes : List UInt8} {written : List (List String)}
    (h : (rows bytes).map (·.fields) = written.map (·.map Text.bytes)) :
    records? bytes = some written := by
  rw [records?]
  generalize rows bytes = read at h
  induction written generalizing read with
  | nil =>
      rw [List.map_eq_nil_iff.mp h]
      rfl
  | cons texts written ih =>
      obtain ⟨row, read, rfl, hrow, hread⟩ := List.map_eq_cons_iff.mp h
      rw [List.mapM_cons, Row.texts_eq hrow, ih read hread]
      rfl

/-- The records of a written table are those that were written. -/
theorem records?_join (written : List (List String))
    (hne : ∀ texts ∈ written, texts ≠ [])
    (hmark : (Text.bytes (String.join (written.map line))).head? ≠ some 0xEF) :
    records? (Text.bytes (String.join (written.map line))) = some written := by
  have hstart : ({} : Scanner).Reads .between [] [] [] := ⟨rfl, rfl, rfl, rfl⟩
  have hread := foldl_lines written hne hstart
  refine records?_eq ?_
  rw [rows_eq hmark, Scanner.finish, hread.standing_eq]
  exact hread.records_eq

theorem bytes_line_ne_nil (texts : List String) :
    Text.bytes (line texts) ≠ [] := by
  unfold line
  rw [Text.bytes_append]
  exact List.append_ne_nil_of_right_ne_nil _ (by decide)

/-- A line begins as a byte order mark does only if its first field does. -/
theorem head?_line {text : String} {texts : List String}
    (h : (Text.bytes text).head? ≠ some 0xEF) :
    (Text.bytes (line (text :: texts))).head? ≠ some 0xEF := by
  by_cases halone : text = "" ∧ texts = []
  · obtain ⟨rfl, rfl⟩ := halone
    decide
  · rw [bytes_line halone, bytes_encode]
    cases hquotes : needsQuotes text.toList with
    | true =>
        rw [if_pos rfl]
        simp +decide
    | false =>
        rw [if_neg Bool.false_ne_true]
        cases hbytes : Text.bytes text with
        | cons b rest => simpa [hbytes] using h
        | nil =>
            -- A comma or the line end follows an empty field.
            rw [List.nil_append, lineRest]
            cases texts <;> simp +decide

/-- The records of a written table whose first field does not begin as a byte
order mark does are those that were written. -/
theorem records?_lines {text : String} {texts : List String}
    {written : List (List String)}
    (hmark : (Text.bytes text).head? ≠ some 0xEF)
    (hne : ∀ texts ∈ written, texts ≠ []) :
    records?
      (Text.bytes (String.join (((text :: texts) :: written).map line))) =
      some ((text :: texts) :: written) := by
  refine records?_join _ ?_ ?_
  · intro fields hfields
    rcases List.mem_cons.mp hfields with rfl | hfields
    · exact List.cons_ne_nil _ _
    · exact hne fields hfields
  · rw [List.map_cons, String.join_cons, Text.bytes_append,
      List.head?_append_of_ne_nil _ (bytes_line_ne_nil _)]
    exact head?_line hmark

/-- The records of a table of values: the names of the columns come first, if
there are any values. -/
def tabulated (columns : List (Column α)) (values : List α) :
    List (List String) :=
  if values.isEmpty then []
  else columns.map (·.name) :: values.map fun value =>
    columns.map (·.text value)

theorem tabulated_of_ne_nil (columns : List (Column α)) {values : List α}
    (h : values ≠ []) :
    tabulated columns values =
      columns.map (·.name) ::
        values.map fun value => columns.map (·.text value) :=
  if_neg (by simpa using h)

/-- What the line of a value says under the name of a column. -/
def cellOf (columns : List (Column α)) (value : α) (column : String) :
    Option String :=
  (columns.map fun c => (c.name, c.text value)).lookup column

/-- A table of values is read as their texts under the column names. -/
theorem records?_withHeader {columns : List (Column α)} {name : String}
    {names : List String} (hnames : columns.map (·.name) = name :: names)
    (hmark : (Text.bytes name).head? ≠ some 0xEF) (values : List α) :
    records? (Text.bytes (withHeader columns values)) =
      some (tabulated columns values) := by
  cases values with
  | nil => rfl
  | cons value values =>
      have hlines := tabulated_of_ne_nil columns (List.cons_ne_nil value values)
      have htext : withHeader columns (value :: values) =
          String.join ((tabulated columns (value :: values)).map line) := by
        rw [hlines, List.map_cons, String.join_cons, List.map_map]
        rfl
      rw [htext, hlines, hnames]
      refine records?_lines hmark fun fields hfields hnil => ?_
      obtain ⟨value, -, rfl⟩ := List.mem_map.mp hfields
      rw [List.map_eq_nil_iff] at hnil
      simp [hnil] at hnames

end ExactSpend.Table
