import Cppforge.Files.CsvFile

namespace Cppforge.Files.CsvFile
open Bytes

variable {file : CsvFile} {fields row item : List Text} {rows : List (List Text)}
  {field acc line rest text : Text} {c : UInt8} {quoted : Bool}

section Steps

theorem parseFrom_char (hq : c ≠ quote) (hc : c ≠ comma) :
    parseFrom false acc (c :: line) = parseFrom false (acc ++ [c]) line := by
  rw [parseFrom.eq_def]
  simp [hq, hc]

theorem parseFrom_comma :
    parseFrom false acc (comma :: line) = acc :: parseFrom false [] line := by
  rw [parseFrom.eq_def]
  simp [show comma ≠ quote by decide]

theorem parseFrom_open : parseFrom false acc (quote :: line) = parseFrom true acc line := by
  rw [parseFrom.eq_def]
  simp

theorem parseFrom_inside (hq : c ≠ quote) :
    parseFrom true acc (c :: line) = parseFrom true (acc ++ [c]) line := by
  rw [parseFrom.eq_def]
  simp [hq]

theorem parseFrom_pair :
    parseFrom true acc (quote :: quote :: line) = parseFrom true (acc ++ [quote]) line := by
  rw [parseFrom.eq_def]
  simp

theorem parseFrom_close (hrest : rest.head? ≠ some quote) :
    parseFrom true acc (quote :: rest) = parseFrom false acc rest := by
  rw [parseFrom.eq_def]
  cases rest with
  | nil => simp
  | cons d rest =>
    have hd : d ≠ quote := by simpa using hrest
    simp [hd]

end Steps

section Lines

theorem parseFrom_plain (hq : quote ∉ field) (hc : comma ∉ field) :
    parseFrom false acc (field ++ rest) = parseFrom false (acc ++ field) rest := by
  induction field generalizing acc with
  | nil => simp
  | cons c field ih =>
    simp only [List.mem_cons, not_or] at hq hc
    rw [List.cons_append, parseFrom_char (Ne.symm hq.1) (Ne.symm hc.1), ih hq.2 hc.2,
      List.append_assoc, List.singleton_append]

/-- What follows the closing quote must not be one, or it would be taken for a doubled one. -/
theorem parseFrom_doubled (hrest : rest.head? ≠ some quote) :
    parseFrom true acc (doubleQuotes field ++ quote :: rest) =
      parseFrom false (acc ++ field) rest := by
  induction field generalizing acc with
  | nil =>
    rw [List.append_nil]
    exact parseFrom_close hrest
  | cons c field ih =>
    have hstep : parseFrom true acc (doubleQuotes (c :: field) ++ quote :: rest) =
        parseFrom true (acc ++ [c]) (doubleQuotes field ++ quote :: rest) := by
      unfold doubleQuotes
      rw [List.flatMap_cons, List.append_assoc]
      split
      · rename_i hc
        rw [hc]
        exact parseFrom_pair
      · rename_i hc
        exact parseFrom_inside hc
    rw [hstep, ih, List.append_assoc, List.singleton_append]

/-- A field that was written is the next one read, whatever its characters. -/
theorem parseFrom_escape (hrest : rest.head? ≠ some quote) :
    parseFrom false [] (escapeField field ++ rest) = parseFrom false field rest := by
  unfold escapeField
  split
  · rename_i hplain
    exact parseFrom_plain hplain.2.1 hplain.1
  · rw [List.cons_append, parseFrom_open, List.append_assoc, List.singleton_append,
      parseFrom_doubled hrest, List.nil_append]

theorem writeFields_cons (field next : Text) (fields : List Text) :
    writeFields (field :: next :: fields) =
      escapeField field ++ comma :: writeFields (next :: fields) := rfl

theorem parseLine_write (hne : fields ≠ []) : parseLine (writeFields fields) = fields := by
  unfold parseLine
  induction fields with
  | nil => exact absurd rfl hne
  | cons field fields ih =>
    cases fields with
    | nil =>
      have hlast : parseFrom false [] (escapeField field ++ []) = [field] :=
        parseFrom_escape (by simp)
      rw [List.append_nil] at hlast
      exact hlast
    | cons next fields =>
      have hcomma : (comma :: writeFields (next :: fields)).head? ≠ some quote := by
        simp [comma, quote]
      rw [writeFields_cons, parseFrom_escape hcomma, parseFrom_comma, ih (List.cons_ne_nil _ _)]

theorem writeFields_eq (fields : List Text) :
    writeFields fields = [comma].intercalate (fields.map escapeField) := by
  induction fields with
  | nil => rfl
  | cons field fields ih =>
    cases fields with
    | nil => simp [writeFields, List.intercalate]
    | cons next fields =>
      rw [writeFields_cons, ih]
      simp [List.intercalate]

/-- A written line gives back its fields, with commas, quotes and line breaks in any of them. -/
theorem parseLine_joined (fs : List Text) (hfs : fs ≠ []) :
    parseLine ([comma].intercalate (fs.map escapeField)) = fs := by
  rw [← writeFields_eq]
  exact parseLine_write hfs

/-- A quote before a comma, a lone quote, an empty field and a line break at the end. -/
theorem parseLine_joined_fields :
    parseLine ([comma].intercalate
        ([[97, quote, comma], [quote], [], [13, newline]].map escapeField)) =
      [[97, quote, comma], [quote], [], [13, newline]] :=
  parseLine_joined _ (List.cons_ne_nil _ _)

/-- Reading a line brings no characters in. -/
theorem mem_parseFrom (hfield : field ∈ parseFrom quoted acc line) (hc : c ∈ field) :
    c ∈ acc ∨ c ∈ line := by
  fun_induction parseFrom quoted acc line with
  | case1 quoted acc =>
    rw [List.mem_singleton.mp hfield] at hc
    exact .inl hc
  | case7 quoted acc line _ _ ih =>
    rcases List.mem_cons.mp hfield with rfl | hrest
    · exact .inl hc
    · rcases ih hrest with hnil | hline
      · cases hnil
      · exact .inr (List.mem_cons_of_mem _ hline)
  | _ =>
    rename_i ih
    have hcases := ih hfield
    simp only [List.mem_append, List.mem_cons, List.not_mem_nil, or_false] at hcases ⊢
    grind

theorem parseLine_ne_nil (line : Text) : parseLine line ≠ [] := by
  unfold parseLine
  fun_induction parseFrom false [] line with
  | case1 => simp
  | case7 => simp
  | _ => assumption

theorem newline_mem_escape : newline ∈ escapeField field ↔ newline ∈ field := by
  unfold escapeField
  split
  · rfl
  · have hquote : newline ≠ quote := by decide
    have hdouble : newline ∈ doubleQuotes field ↔ newline ∈ field := by
      unfold doubleQuotes
      rw [List.mem_flatMap]
      constructor
      · intro hmem
        obtain ⟨c, hc, hin⟩ := hmem
        split at hin
        · simp [hquote] at hin
        · rwa [List.mem_singleton.mp hin]
      · intro hmem
        exact ⟨newline, hmem, by simp [hquote]⟩
    simp [hquote, hdouble]

theorem newline_mem_write : newline ∈ writeFields fields ↔ ∃ field ∈ fields, newline ∈ field := by
  induction fields with
  | nil => simp [writeFields]
  | cons field fields ih =>
    cases fields with
    | nil => simp [writeFields, newline_mem_escape]
    | cons next fields =>
      have hcomma : newline ≠ comma := by decide
      rw [writeFields_cons, List.mem_append, List.mem_cons, ih, newline_mem_escape]
      simp only [hcomma, false_or, List.mem_cons, exists_eq_or_imp]

theorem writeFields_eq_nil (hne : fields ≠ []) : writeFields fields = [] ↔ fields = [[]] := by
  constructor
  · intro hnil
    have hparse := parseLine_write hne
    rw [hnil] at hparse
    exact hparse.symm
  · intro hblank
    rw [hblank]
    rfl

end Lines

section Files

/-- A file without its blank lines. -/
def fullLines (contents : Text) : List Text :=
  (split newline contents).filter fun line => !line.isEmpty

theorem foldl_readLine (lines : List Text) (file : CsvFile) :
    lines.foldl readLine (file, true) =
      ({ file with
          rows := file.rows ++ (lines.filter fun line => !line.isEmpty).map parseLine }, true) := by
  induction lines generalizing file with
  | nil => simp
  | cons line lines ih =>
    unfold readLine at ih ⊢
    rw [List.foldl_cons]
    by_cases hblank : line.isEmpty = true
    · rw [if_pos hblank, ih, List.filter_cons_of_neg (by simp [hblank])]
    · rw [if_neg hblank, List.filter_cons_of_pos (by simpa using hblank), List.map_cons]
      simp only [if_true, ih, List.append_assoc, List.singleton_append]

/-- The first line that is not blank is the header, the other ones are the rows. -/
theorem load_eq (contents : Text) :
    load contents =
      match fullLines contents with
      | [] => ⟨[], [], 0, true⟩
      | line :: lines =>
        ⟨parseLine line, lines.map parseLine, (parseLine line).length, true⟩ := by
  unfold load fullLines
  induction split newline contents with
  | nil => rfl
  | cons line lines ih =>
    rw [List.foldl_cons]
    by_cases hblank : line.isEmpty = true
    · rw [List.filter_cons_of_neg (by simp [hblank]), ← ih]
      simp only [readLine, hblank, if_true]
    · rw [List.filter_cons_of_pos (by simpa using hblank)]
      simp [readLine, hblank, foldl_readLine]

/-- What was written, cut into lines again. -/
theorem split_written (hrows : ∀ fields ∈ rows, ∀ field ∈ fields, newline ∉ field) :
    split newline (rows.flatMap writeLine) = rows.map writeFields := by
  have hlines : rows.flatMap writeLine =
      (rows.map writeFields).flatMap fun line => line ++ [newline] := by
    rw [List.flatMap_map]
    rfl
  rw [hlines, split_lines]
  intro line hline
  obtain ⟨fields, hfields, rfl⟩ := List.mem_map.mp hline
  rw [newline_mem_write]
  intro hbreak
  obtain ⟨field, hfield, hin⟩ := hbreak
  exact hrows fields hfields field hfield hin

theorem map_parseLine_write (hne : ∀ fields ∈ rows, fields ≠ []) :
    (rows.map writeFields).map parseLine = rows := by
  rw [List.map_map]
  refine (List.map_congr_left (g := id) ?_).trans (List.map_id rows)
  intro fields hfields
  exact parseLine_write (hne fields hfields)

theorem newline_not_mem_load (contents : Text) :
    (∀ field ∈ (load contents).header, newline ∉ field) ∧
      ∀ row ∈ (load contents).rows, row ≠ [] ∧ ∀ field ∈ row, newline ∉ field := by
  have hline : ∀ line ∈ fullLines contents, ∀ field ∈ parseLine line, newline ∉ field := by
    intro line hline field hfield hin
    have hno := not_mem_split (List.mem_filter.mp hline).1
    rcases mem_parseFrom hfield hin with hnil | hmem
    · cases hnil
    · exact hno hmem
  rw [load_eq]
  cases hlines : fullLines contents with
  | nil => simp
  | cons line lines =>
    rw [hlines] at hline
    refine ⟨hline line List.mem_cons_self, ?_⟩
    intro row hrow
    obtain ⟨l, hl, rfl⟩ := List.mem_map.mp hrow
    exact ⟨parseLine_ne_nil l, hline l (List.mem_cons_of_mem _ hl)⟩

end Files

section Runs

/-- What holds of a file with a header after any calls. -/
structure Headed (file : CsvFile) : Prop where
  valid : file.isValid = true
  header_ne : file.header ≠ []
  header : ∀ field ∈ file.header, newline ∉ field
  count : file.columnCount = file.header.length
  rows : ∀ row ∈ file.rows, row ≠ []

theorem load_headed (hheader : (load text).header ≠ []) : Headed (load text) := by
  obtain ⟨hfields, hrows⟩ := newline_not_mem_load text
  have hvalid : (load text).isValid = true := rfl
  refine ⟨hvalid, hheader, hfields, ?_, fun row hrow => (hrows row hrow).1⟩
  rw [load_eq] at hheader ⊢
  split
  · rename_i hnone
    simp [hnone] at hheader
  · rfl

theorem insertRow_headed (hfile : Headed file) (insertIndex : Nat) (item : List Text) :
    Headed (file.insertRow insertIndex item).1 := by
  have hpos : file.columnCount ≠ 0 := by
    rw [hfile.count]
    exact fun hzero => hfile.header_ne (List.length_eq_zero_iff.mp hzero)
  unfold insertRow
  split
  · exact hfile
  · split
    · exact hfile
    · rename_i hfits
      rw [not_and, not_not] at hfits
      refine ⟨hfile.valid, hfile.header_ne, hfile.header, hfile.count, ?_⟩
      intro row hrow
      rcases List.mem_append.mp hrow with hbefore | hrow
      · exact hfile.rows row (List.mem_of_mem_take hbefore)
      · rcases List.mem_cons.mp hrow with rfl | hafter
        · intro hnil
          rw [hnil] at hfits
          exact hpos (hfits hpos).symm
        · exact hfile.rows row (List.mem_of_mem_drop hafter)

theorem run_headed (hfile : Headed file) (ops : List Op) : Headed (file.run ops) := by
  unfold run
  induction ops generalizing file with
  | nil => exact hfile
  | cons op ops ih =>
    refine ih (?_ : Headed (file.apply op))
    cases op with
    | insertRow insertIndex item => exact insertRow_headed hfile insertIndex item
    | pushBack item => exact insertRow_headed hfile _ item

/-- The same header and the same rows come back from what is written. -/
def RoundTrips (file : CsvFile) : Prop :=
  ∃ out, file.save = some out ∧ (load out).header = file.header ∧ (load out).rows = file.rows

/-- No line is left blank and no field has a line break. -/
def Writable (file : CsvFile) : Prop :=
  file.header ≠ [[]] ∧ ∀ row ∈ file.rows, row ≠ [[]] ∧ ∀ field ∈ row, newline ∉ field

theorem Headed.lines (hfile : Headed file)
    (hrows : ∀ row ∈ file.rows, ∀ field ∈ row, newline ∉ field) :
    split newline (writeLine file.header ++ file.rows.flatMap writeLine) =
      writeFields file.header :: file.rows.map writeFields := by
  have hall : ∀ fields ∈ file.header :: file.rows, ∀ field ∈ fields, newline ∉ field := by
    intro fields hfields
    rcases List.mem_cons.mp hfields with rfl | hrow
    · exact hfile.header
    · exact hrows fields hrow
  exact split_written hall

theorem Headed.roundTrips (hfile : Headed file) (hwritable : Writable file) : RoundTrips file := by
  refine ⟨_, if_pos hfile.valid, ?_⟩
  have hfull : fullLines (writeLine file.header ++ file.rows.flatMap writeLine) =
      writeFields file.header :: file.rows.map writeFields := by
    unfold fullLines
    rw [hfile.lines fun row hrow => (hwritable.2 row hrow).2, List.filter_eq_self]
    intro line hline
    rw [Bool.not_eq_true', List.isEmpty_eq_false_iff]
    rcases List.mem_cons.mp hline with rfl | hline
    · rw [ne_eq, writeFields_eq_nil hfile.header_ne]
      exact hwritable.1
    · obtain ⟨row, hrow, rfl⟩ := List.mem_map.mp hline
      rw [ne_eq, writeFields_eq_nil (hfile.rows row hrow)]
      exact (hwritable.2 row hrow).1
  rw [load_eq, hfull]
  exact ⟨parseLine_write hfile.header_ne, map_parseLine_write hfile.rows⟩

/-- Where a line is blank there are fewer rows than before, or no header. -/
theorem Headed.writable (hfile : Headed file) (htrip : RoundTrips file) : Writable file := by
  obtain ⟨out, hsave, hheader, hrows⟩ := htrip
  have hout : writeLine file.header ++ file.rows.flatMap writeLine = out := by
    have hthis : file.save = some (writeLine file.header ++ file.rows.flatMap writeLine) :=
      if_pos hfile.valid
    rw [hthis] at hsave
    exact Option.some.inj hsave
  have hplain : ∀ row ∈ file.rows, ∀ field ∈ row, newline ∉ field := by
    rw [← hrows]
    exact fun row hrow => ((newline_not_mem_load out).2 row hrow).2
  have hlines := hfile.lines hplain
  rw [hout] at hlines
  have hcount : (fullLines out).length = (split newline out).length := by
    rw [load_eq] at hheader hrows
    cases hfull : fullLines out with
    | nil =>
      rw [hfull] at hheader
      exact absurd hheader.symm hfile.header_ne
    | cons line lines =>
      rw [hfull] at hrows
      simp only at hrows
      rw [hlines, ← hrows]
      simp
  have hall := List.length_filter_eq_length_iff.mp hcount
  rw [hlines] at hall
  have hblank : ∀ fields ∈ file.header :: file.rows, fields ≠ [[]] := by
    intro fields hfields hnone
    have hempty := hall [] (by
      rw [← List.map_cons, List.mem_map]
      exact ⟨fields, hfields, by rw [hnone]; rfl⟩)
    cases hempty
  exact ⟨hblank _ List.mem_cons_self, fun row hrow =>
    ⟨hblank row (List.mem_cons_of_mem _ hrow), hplain row hrow⟩⟩

/-- What is saved is what is loaded again exactly where no line is left blank and no field has a
line break. -/
theorem save_load_iff (hheader : (load text).header ≠ []) (ops : List Op) :
    RoundTrips ((load text).run ops) ↔ Writable ((load text).run ops) :=
  have hfile := run_headed (load_headed hheader) ops
  ⟨hfile.writable, hfile.roundTrips⟩

/-- A row with a quote and a comma, and one of two empty fields. -/
theorem save_load_iff_rows :
    RoundTrips ((load [97, 44, 98, 10]).run [.pushBack [[quote], [comma]], .insertRow 0 [[], []]]) ↔
      Writable ((load [97, 44, 98, 10]).run
        [.pushBack [[quote], [comma]], .insertRow 0 [[], []]]) :=
  have hheader : (load [97, 44, 98, 10]).header = [[97], [98]] := rfl
  save_load_iff (by rw [hheader]; exact List.cons_ne_nil _ _) _

/-- A field with a line break is cut in two, and a row of one empty field is not seen. -/
theorem saved_rows_lost :
    ¬ RoundTrips ((load [97, 10]).run [.pushBack [[97, 10]]]) ∧
      ¬ RoundTrips ((load [97, 10]).run [.pushBack [[]]]) := by
  constructor
  · intro htrip
    obtain ⟨out, hsave, _, hrows⟩ := htrip
    have hout : some [97, 10, 34, 97, 10, 34, 10] = some out := hsave
    rw [← Option.some.inj hout] at hrows
    have hcut : [[[97]], [[]]] = [[[97, newline]]] := hrows
    simp at hcut
  · intro htrip
    obtain ⟨out, hsave, _, hrows⟩ := htrip
    have hout : some [97, 10, 10] = some out := hsave
    rw [← Option.some.inj hout] at hrows
    have hnone : [] = [[([] : Text)]] := hrows
    cases hnone

end Runs

end Cppforge.Files.CsvFile
