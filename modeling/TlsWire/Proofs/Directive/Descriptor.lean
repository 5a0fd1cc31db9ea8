import TlsWire.Directive.Parser

/-!
# What a descriptor says

A descriptor is a list of pieces, and a piece may hold several texts between commas. Only the first
two texts that are not blank decide what it says (`Means`): the reading ends at the second one at
the latest, as a text that is no directive or as a directive too many.

* `descriptor_means` — what is read from a list of pieces, and that it does not matter how the texts
  are distributed over the pieces;
* `readInTurn_eq` — reading piece by piece, and text by text within a piece, comes to the same as
  reading all texts in one go.
-/

namespace TlsWire.Directive

/-! ## The texts of a descriptor -/

/-- What is between the commas of a piece. -/
def cuts (piece : String) : List String := (piece.toList.splitOn ',').map String.ofList

/-- The cuts without the blanks around them, and without those that are nothing but blank. -/
def kept (parts : List String) : List String := (parts.map Text.trimmed).filter (· ≠ "")

/-- The texts of a descriptor, in order. -/
def texts (pieces : List String) : List String := kept (pieces.flatMap cuts)

/-- A cut that is all blank is dropped. -/
theorem kept_cons_of_blank {cut : String} (h : Text.trimmed cut = "") (parts : List String) :
    kept (cut :: parts) = kept parts := by
  simp [kept, h]

/-- Any other cut is kept without the blanks around it. -/
theorem kept_cons {cut : String} (h : Text.trimmed cut ≠ "") (parts : List String) :
    kept (cut :: parts) = Text.trimmed cut :: kept parts := by
  simp [kept, h]

/-- Cuts are kept or dropped each on its own. -/
theorem kept_append (a b : List String) : kept (a ++ b) = kept a ++ kept b := by
  simp [kept]

/-- The texts of the first piece come first. -/
theorem texts_cons (piece : String) (pieces : List String) :
    texts (piece :: pieces) = kept (cuts piece) ++ texts pieces := by
  rw [texts, List.flatMap_cons, kept_append, texts]

/-- The parser's own way of finding the texts of a piece is cutting, trimming and dropping what is
blank. -/
theorem textsOf_eq (piece : String) : textsOf piece = kept (cuts piece) := by
  unfold textsOf cuts
  induction piece.toList.splitOn ',' with
  | nil => rfl
  | cons cs parts ih =>
    rw [List.filterMap_cons, List.map_cons, ih]
    -- Both sides drop a cut exactly if nothing is left of it after trimming.
    cases htrim : Text.trim cs with
    | nil =>
      have hblank : Text.trimmed (String.ofList cs) = "" := by simp [Text.trimmed, htrim]
      rw [kept_cons_of_blank hblank]
    | cons c word =>
      have htext : Text.trimmed (String.ofList cs) = String.ofList (c :: word) := by
        simp [Text.trimmed, htrim]
      have hne : Text.trimmed (String.ofList cs) ≠ "" := by simp [htext]
      rw [kept_cons hne, htext]

/-- The texts of all pieces, in order. -/
theorem flatMap_textsOf (pieces : List String) : pieces.flatMap textsOf = texts pieces := by
  induction pieces with
  | nil => rfl
  | cons piece pieces ih => rw [List.flatMap_cons, texts_cons, textsOf_eq, ih]

/-- A comma between two texts is as good as the end of a piece. -/
theorem cuts_comma (a b : String) : cuts (a ++ "," ++ b) = cuts a ++ cuts b := by
  have hlist : (a ++ "," ++ b).toList = a.toList ++ ',' :: b.toList := by simp
  rw [cuts, hlist, List.splitOn_append_cons_self, List.map_append, cuts, cuts]

/-- Without a comma there is one cut, and that is the piece. -/
theorem cuts_of_no_comma {piece : String} (h : ',' ∉ piece.toList) : cuts piece = [piece] := by
  rw [cuts, List.splitOn_eq_singleton h]
  simp

/-- The texts of the pieces are those of the one piece that they make up with commas between
them. -/
theorem texts_intercalate (pieces : List String) :
    texts [",".intercalate pieces] = texts pieces := by
  induction pieces with
  | nil => rfl
  | cons piece pieces ih =>
    -- The last piece has no comma behind it.
    cases pieces with
    | nil => rw [String.intercalate_singleton]
    | cons next pieces =>
      rw [texts_cons piece, ← ih, String.intercalate_cons_cons, texts_cons, cuts_comma,
        kept_append, texts_cons, List.append_assoc]

/-- No text is blank, and trimming it again changes nothing. -/
theorem trimmed_of_mem_texts {pieces : List String} {text : String} (h : text ∈ texts pieces) :
    Text.trimmed text = text ∧ text ≠ "" := by
  obtain ⟨hmem, hne⟩ := List.mem_filter.mp h
  obtain ⟨cut, _, rfl⟩ := List.mem_map.mp hmem
  refine ⟨?_, by simpa using hne⟩
  simp [Text.trimmed, Text.trim_trim]

/-! ## Single directives -/

/-- Whether the directive goes by a name. The default one does not, and a head has one of three
widths. -/
def hasName : Directive → Bool
  | .default => false
  | .head width => 1 ≤ width && width ≤ 3
  | _ => true

/-- The text names the directive: it is how the directive is written. -/
def Names (text : String) (d : Directive) : Prop := text = d.text ∧ d.hasName = true

/-- There are eight names. -/
theorem names_iff_mem {text : String} {d : Directive} : Names text d ↔ (text, d) ∈ named := by
  constructor
  · rintro ⟨rfl, hname⟩
    cases d with
    | default => cases hname
    | head width =>
      simp only [hasName, Bool.and_eq_true, decide_eq_true_eq] at hname
      -- Each of the three widths stands in the table.
      obtain rfl | rfl | rfl : width = 1 ∨ width = 2 ∨ width = 3 := by omega
      · decide
      · decide
      · decide
    | _ => decide
  · have hall : ∀ e ∈ named, e.1 = e.2.text ∧ e.2.hasName = true := by decide
    exact hall (text, d)

/-- Looking a text up in the table is asking which directive it names. -/
theorem lookup_named {text : String} {d : Directive} :
    named.lookup text = some d ↔ Names text d := by
  rw [names_iff_mem]
  constructor
  · intro h
    obtain ⟨l, r, hnamed, _⟩ := List.lookup_eq_some_iff.mp h
    rw [hnamed]
    simp
  · -- No text stands in the table twice.
    have hall : ∀ e ∈ named, named.lookup e.1 = some e.2 := by decide
    exact hall (text, d)

/-- Nothing but blanks stands for the default. -/
theorem parse_of_blank {text : String} (h : Text.trimmed text = "") :
    parse text = .ok .default := by
  unfold parse
  rw [h]
  rfl

/-- A name stands for its directive, with any blanks around it. -/
theorem parse_of_names {text : String} {d : Directive} (h : Names (Text.trimmed text) d) :
    parse text = .ok d := by
  have hlookup := lookup_named.mpr h
  unfold parse
  split
  -- The empty text is not in the table.
  case h_1 hblank =>
    rw [hblank] at hlookup
    cases hlookup
  case h_2 => rw [hlookup]

/-- Any other text is reported as it is, with its blanks. -/
theorem parse_of_unnamed {text : String} (hne : Text.trimmed text ≠ "")
    (h : ∀ d, ¬ Names (Text.trimmed text) d) : parse text = .error (.unknown text) := by
  -- What stands in the table would be a name.
  have hlookup : named.lookup (Text.trimmed text) = none := by
    cases hfound : named.lookup (Text.trimmed text) with
    | none => rfl
    | some d => exact absurd (lookup_named.mp hfound) (h d)
  unfold parse
  split
  case h_1 hblank => exact absurd hblank hne
  case h_2 => rw [hlookup]

/-- A single directive is read from a text that is blank or names one, and from no other text. -/
theorem parse_cases (text : String) :
    (Text.trimmed text = "" ∧ parse text = .ok .default) ∨
    (∃ d, Names (Text.trimmed text) d ∧ parse text = .ok d) ∨
    (Text.trimmed text ≠ "" ∧ (∀ d, ¬ Names (Text.trimmed text) d) ∧
      parse text = .error (.unknown text)) := by
  by_cases hblank : Text.trimmed text = ""
  · exact .inl ⟨hblank, parse_of_blank hblank⟩
  · by_cases hnamed : ∃ d, Names (Text.trimmed text) d
    · obtain ⟨d, hd⟩ := hnamed
      exact .inr (.inl ⟨d, hd, parse_of_names hd⟩)
    · have hno : ∀ d, ¬ Names (Text.trimmed text) d := fun d hd => hnamed ⟨d, hd⟩
      exact .inr (.inr ⟨hblank, hno, parse_of_unnamed hblank hno⟩)

/-! ## All texts -/

/-- What a descriptor with these texts says. A third text never counts. -/
inductive Means (whole : String) : List String → Except DirectiveError Directive → Prop where
  | nothing : Means whole [] (.ok .default)
  | unknown {t : String} {ts : List String} (ht : ∀ d, ¬ Names t d) :
      Means whole (t :: ts) (.error (.unknown t))
  | single {t : String} {d : Directive} (ht : Names t d) : Means whole [t] (.ok d)
  | secondUnknown {t u : String} {d : Directive} {us : List String} (ht : Names t d)
      (hu : ∀ e, ¬ Names u e) : Means whole (t :: u :: us) (.error (.unknown u))
  | conflicting {t u : String} {d e : Directive} {us : List String} (ht : Names t d)
      (hu : Names u e) : Means whole (t :: u :: us) (.error (.conflicting whole))

variable {whole : String} {ts : List String} {r r' : Except DirectiveError Directive}

/-- A text names one directive at most. -/
theorem Names.unique {text : String} {d d' : Directive} (h : Names text d) (h' : Names text d') :
    d = d' :=
  Option.some.inj ((lookup_named.mpr h).symm.trans (lookup_named.mpr h'))

/-- A descriptor says one thing. The cases exclude each other, because a text either names a
directive or does not. -/
theorem Means.unique (h : Means whole ts r) (h' : Means whole ts r') : r = r' := by
  cases h with
  | nothing =>
    cases h'
    rfl
  | unknown ht =>
    cases h' with
    | unknown => rfl
    | single ht' => exact absurd ht' (ht _)
    | secondUnknown ht' => exact absurd ht' (ht _)
    | conflicting ht' => exact absurd ht' (ht _)
  -- With one text there is no second one to be unknown or in conflict.
  | single ht =>
    cases h' with
    | unknown ht' => exact absurd ht (ht' _)
    | single ht' => rw [ht.unique ht']
  | secondUnknown ht hu =>
    cases h' with
    | unknown ht' => exact absurd ht (ht' _)
    | secondUnknown => rfl
    | conflicting _ hu' => exact absurd hu' (hu _)
  | conflicting ht hu =>
    cases h' with
    | unknown ht' => exact absurd ht (ht' _)
    | secondUnknown _ hu' => exact absurd hu (hu' _)
    | conflicting => rfl

/-- A text that is no directive ends the reading, whatever came before it. -/
theorem gather_of_unknown {text : String} {e : DirectiveError} (h : parse text = .error e)
    (found : Option Directive) : gather whole found (text :: ts) = .error e := by
  rw [gather, h]
  rfl

/-- The reading ends at the second directive. -/
theorem gather_some {text : String} {d e : Directive} (h : parse text = .ok e) :
    gather whole (some d) (text :: ts) = .error (.conflicting whole) := by
  rw [gather, h]
  rfl

/-- The first directive is kept while the texts behind it are read. -/
theorem gather_none {text : String} {d : Directive} (h : parse text = .ok d) :
    gather whole none (text :: ts) = gather whole (some d) ts := by
  rw [gather, h]
  rfl

/-- A text that is neither blank nor in need of trimming names a directive or is no directive. -/
theorem parse_text {text : String} (h : Text.trimmed text = text ∧ text ≠ "") :
    (∃ d, Names text d ∧ parse text = .ok d) ∨
    ((∀ d, ¬ Names text d) ∧ parse text = .error (.unknown text)) := by
  obtain ⟨htrim, hne⟩ := h
  obtain ⟨hblank, _⟩ | hnamed | ⟨_, hno⟩ := htrim ▸ parse_cases text
  · exact absurd hblank hne
  · exact .inl hnamed
  · exact .inr hno

/-- What is gathered from texts is what they mean. No more than two of them are ever looked at, so
no induction is needed. -/
theorem means_gather (htexts : ∀ t ∈ ts, Text.trimmed t = t ∧ t ≠ "") :
    Means whole ts (gather whole none ts) := by
  cases ts with
  | nil => exact .nothing
  | cons t ts =>
    obtain ⟨d, ht, hparse⟩ | ⟨ht, hparse⟩ := parse_text (htexts t List.mem_cons_self)
    · rw [gather_none hparse]
      cases ts with
      | nil => exact .single ht
      | cons u us =>
        have hmem : u ∈ t :: u :: us := by simp
        -- The second text ends the reading, by being a directive or by not being one.
        obtain ⟨e, hu, hparse'⟩ | ⟨hu, hparse'⟩ := parse_text (htexts u hmem)
        · rw [gather_some hparse']
          exact .conflicting ht hu
        · rw [gather_of_unknown hparse']
          exact .secondUnknown ht hu
    · rw [gather_of_unknown hparse]
      exact .unknown ht

/-- The pieces are read text by text, and a conflict is told with the pieces joined by commas. -/
theorem parsePieces_eq (pieces : List String) :
    parsePieces pieces = gather (",".intercalate pieces) none (texts pieces) := by
  rw [parsePieces, flatMap_textsOf]

/-- Reading the pieces of a descriptor gives what their texts mean. -/
theorem means_parsePieces (pieces : List String) :
    Means (",".intercalate pieces) (texts pieces) (parsePieces pieces) := by
  rw [parsePieces_eq]
  exact means_gather fun t => trimmed_of_mem_texts

/-- The joined pieces have the same texts, and are already joined. -/
theorem parsePieces_intercalate (pieces : List String) :
    parsePieces [",".intercalate pieces] = parsePieces pieces := by
  rw [parsePieces_eq, parsePieces_eq, texts_intercalate, String.intercalate_singleton]

/-! ## One piece after another -/

/-- Reads one cut after what has been found before it. -/
def readCut (whole : String) (found : Option Directive) (cut : String) :
    Except DirectiveError (Option Directive) :=
  if Text.trimmed cut = "" then .ok found
  else do
    let directive ← parse (Text.trimmed cut)
    if found.isSome then throw (.conflicting whole)
    return some directive

/-- Reads a piece cut by cut. -/
def readPiece (whole : String) (found : Option Directive) (piece : String) :
    Except DirectiveError (Option Directive) :=
  (cuts piece).foldlM (readCut whole) found

/-- Reads a descriptor piece by piece. -/
def readInTurn (pieces : List String) : Except DirectiveError Directive := do
  let found ← pieces.foldlM (readPiece (",".intercalate pieces)) none
  return found.getD .default

/-- A cut that is left out changes nothing, and any other one is read as a text is. -/
theorem gather_cut (whole : String) (found : Option Directive) (cut : String)
    (rest : List String) :
    gather whole found (kept [cut] ++ rest) =
      readCut whole found cut >>= fun found => gather whole found rest := by
  unfold readCut
  split
  case isTrue hblank =>
    rw [kept_cons_of_blank hblank]
    rfl
  case isFalse hne =>
    rw [kept_cons hne]
    show gather whole found (Text.trimmed cut :: rest) = _
    rw [gather]
    -- A directive is in conflict if there is one already, and otherwise kept.
    cases parse (Text.trimmed cut) with
    | error e => rfl
    | ok d =>
      cases found with
      | none => rfl
      | some _ => rfl

/-- Cut after cut, the directive found so far is handed on. -/
theorem gather_cuts (whole : String) (found : Option Directive) (parts rest : List String) :
    gather whole found (kept parts ++ rest) =
      parts.foldlM (readCut whole) found >>= fun found => gather whole found rest := by
  induction parts generalizing found with
  | nil => rfl
  | cons cut parts ih =>
    -- The first cut may leave no text behind.
    have hkept : kept (cut :: parts) = kept [cut] ++ kept parts := kept_append [cut] parts
    rw [hkept, List.append_assoc, gather_cut, List.foldlM_cons, bind_assoc]
    simp only [ih]

/-- The same piece after piece. In the end the default stands in if no directive has been found. -/
theorem gather_pieces (whole : String) (found : Option Directive) (pieces : List String) :
    gather whole found (texts pieces) =
      pieces.foldlM (readPiece whole) found >>= fun found => .ok (found.getD .default) := by
  induction pieces generalizing found with
  | nil => rfl
  | cons piece pieces ih =>
    rw [texts_cons, gather_cuts, List.foldlM_cons, bind_assoc]
    simp only [ih]
    rfl

/-- Which piece a text stands in makes no difference to when the reading ends. -/
theorem readInTurn_eq (pieces : List String) : readInTurn pieces = parsePieces pieces := by
  rw [parsePieces_eq, gather_pieces]
  rfl

/-! ## Text without a comma -/

/-- A text without a comma is its own only cut. -/
theorem texts_of_no_comma {text : String} (h : ',' ∉ text.toList) :
    texts [text] = kept [text] := by
  rw [texts_cons, cuts_of_no_comma h]
  simp [texts, kept]

/-- Without a comma there is no more than one directive, so a descriptor says what the text does.
Only the blanks around a text that is no directive do not come back in the error. -/
theorem parsePieces_of_no_comma {text : String} (h : ',' ∉ text.toList) :
    (∃ d, parse text = .ok d ∧ parsePieces [text] = .ok d) ∨
    parse text = .error (.unknown text) ∧
      parsePieces [text] = .error (.unknown (Text.trimmed text)) := by
  have hmeans := means_parsePieces [text]
  rw [texts_of_no_comma h] at hmeans
  -- The text is blank, a name, or neither.
  obtain ⟨hblank, hparse⟩ | ⟨d, hd, hparse⟩ | ⟨hne, hno, hparse⟩ := parse_cases text
  · rw [kept_cons_of_blank hblank] at hmeans
    exact .inl ⟨.default, hparse, hmeans.unique .nothing⟩
  · have hne : Text.trimmed text ≠ "" := by
      intro hblank
      rw [hblank] at hd
      cases lookup_named.mpr hd
    rw [kept_cons hne] at hmeans
    exact .inl ⟨d, hparse, hmeans.unique (.single hd)⟩
  · rw [kept_cons hne] at hmeans
    exact .inr ⟨hparse, hmeans.unique (.unknown hno)⟩

/-- **What a descriptor says.** The texts of all pieces, cut at the commas, trimmed and without the
blank ones, are read up to the first that names no directive, which is reported, or the second one
that does, which is a conflict and is reported with the whole descriptor.

It comes to the same to read piece by piece, and to read the pieces as one with commas between them.
A text without a comma says on its own what it says as a descriptor; where it is unknown, it is
reported as it stands in the one case and trimmed in the other. -/
theorem descriptor_means :
    (∀ pieces r, parsePieces pieces = r ↔ Means (",".intercalate pieces) (texts pieces) r) ∧
    (∀ pieces, readInTurn pieces = parsePieces pieces) ∧
    (∀ pieces, parsePieces [",".intercalate pieces] = parsePieces pieces) ∧
    (∀ text : String, ',' ∉ text.toList →
      (∃ d, parse text = .ok d ∧ parsePieces [text] = .ok d) ∨
      parse text = .error (.unknown text) ∧
        parsePieces [text] = .error (.unknown (Text.trimmed text))) := by
  refine ⟨fun pieces r => ⟨?_, fun h => (means_parsePieces pieces).unique h⟩, readInTurn_eq,
    parsePieces_intercalate, fun text => parsePieces_of_no_comma⟩
  -- That there is a meaning, and only one, makes this an equivalence.
  rintro rfl
  exact means_parsePieces pieces

/-- The second text is reported if it is unknown, although there are more directives behind it; if
it is a directive, then what is behind it is not looked at. -/
theorem descriptor_means_second_text :
    parsePieces ["head=1 ,, bogus", "omit"] = .error (.unknown "bogus") ∧
    parsePieces [" ,optional", "\tomit, bogus"] =
      .error (.conflicting " ,optional,\tomit, bogus") ∧
    parsePieces [" ,optional,\tomit, bogus"] = parsePieces [" ,optional", "\tomit, bogus"] ∧
    ∃ d, parse "\u2003varint\n" = .ok d ∧ parsePieces ["\u2003varint\n"] = .ok d := by
  obtain ⟨hmeans, _, hjoined, hplain⟩ := descriptor_means
  -- What is not in the table is not a name.
  have hunknown : ∀ d, ¬ Names "bogus" d := by
    intro d hd
    cases lookup_named.mpr hd
  refine ⟨(hmeans _ _).mpr ?_, (hmeans _ _).mpr ?_, hjoined [" ,optional", "\tomit, bogus"], ?_⟩
  · have htexts : texts ["head=1 ,, bogus", "omit"] = ["head=1", "bogus", "omit"] := by decide
    rw [htexts]
    exact .secondUnknown (lookup_named.mp rfl) hunknown
  · have htexts : texts [" ,optional", "\tomit, bogus"] = ["optional", "omit", "bogus"] := by decide
    rw [htexts]
    exact .conflicting (lookup_named.mp rfl) (lookup_named.mp rfl)
  · obtain hok | ⟨herror, _⟩ := hplain "\u2003varint\n" (by decide)
    · exact hok
    · cases herror

end TlsWire.Directive
