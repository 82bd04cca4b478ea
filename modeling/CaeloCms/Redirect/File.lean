import CaeloCms.Lib.Words
import CaeloCms.Redirect.JsonText
import CaeloCms.Redirect.Rows

/-!
# The redirects file

`formatRedirectsFile` and `parseRedirectsFile`: a row is a line of three words.  The words of an accepted row that redirects
are checked; the target of a gone row is not, and has to be one word (`OneWord`) for the file to be read back.
-/

namespace CaeloCms.Redirect

open Words (lines unlines lines_unlines splitOnP_clean splitOnP_subset trim trim_eq_self mem_of_mem_trim)

variable {parseUrl : List Char → Option Url}

/-! ### `Number(text)` -/

/-- The value of digits in a base, after the value `acc` of those before. -/
def digitsValue (base : Nat) : Nat → List Char → Option Nat
  | acc, [] => some acc
  | acc, c :: rest => (hexValue c).bind fun d => if d < base then digitsValue base (acc * base + d) rest else none

def naturalOf (base : Nat) (s : List Char) : Option Nat := if s.isEmpty then none else digitsValue base 0 s

def signedOf (magnitude : List Char → Option Nat) : List Char → Option Int
  | '-' :: rest => (magnitude rest).map fun n => -(n : Int)
  | '+' :: rest => (magnitude rest).map fun n => (n : Int)
  | s => (magnitude s).map fun n => (n : Int)

/-- `m · 10^k`, when that is an integer. -/
def scaled (m : Nat) (k : Int) : Option Nat :=
  if 0 ≤ k then some (m * 10 ^ k.toNat)
  else if m % 10 ^ (-k).toNat = 0 then some (m / 10 ^ (-k).toNat)
  else none

def isExponentMark (c : Char) : Bool := c == 'e' || c == 'E'

def decimalInteger (s : List Char) : Option Nat :=
  let mantissa := s.takeWhile fun c => !isExponentMark c
  let whole := mantissa.takeWhile fun c => c != '.'
  let fraction := (mantissa.dropWhile fun c => c != '.').drop 1
  let exponent := match s.dropWhile fun c => !isExponentMark c with
    | [] => some 0
    | _ :: rest => signedOf (naturalOf 10) rest
  (naturalOf 10 (whole ++ fraction)).bind fun m => exponent.bind fun e => scaled m (e - fraction.length)

/-- `line.trim()` -/
def trimSpace (s : List Char) : List Char := trim isSpace s

/-- `Number(text)`, when `Number.isInteger` holds of it. -/
def integerNumber (text : List Char) : Option Int :=
  match trimSpace text with
  | [] => some 0
  | '0' :: 'x' :: rest => (naturalOf 16 rest).map fun n => (n : Int)
  | '0' :: 'X' :: rest => (naturalOf 16 rest).map fun n => (n : Int)
  | '0' :: 'o' :: rest => (naturalOf 8 rest).map fun n => (n : Int)
  | '0' :: 'O' :: rest => (naturalOf 8 rest).map fun n => (n : Int)
  | '0' :: 'b' :: rest => (naturalOf 2 rest).map fun n => (n : Int)
  | '0' :: 'B' :: rest => (naturalOf 2 rest).map fun n => (n : Int)
  | s => signedOf decimalInteger s

/-! ### The file -/

structure FileRow where
  fromPath : List Char
  toPath : List Char
  statusCode : Int
deriving DecidableEq, Repr

def RedirectTableRow.inFile (row : RedirectTableRow) : FileRow := ⟨row.fromPath, row.toPath, row.statusCode⟩

def tableLine (row : RedirectTableRow) : List Char :=
  row.fromPath ++ ' ' :: (row.toPath ++ ' ' :: natText row.statusCode)

def fileHeader : List Char := "# Auto-generated by Caelo static-generator. Do not edit by hand.".toList

def formatRedirectsFile (rows : List RedirectTableRow) : List Char := unlines '\n' (fileHeader :: rows.map tableLine)

def rowOfLine (line : List Char) : Option FileRow :=
  match line.splitOn ' ' with
  | [fromPath, toPath, status] =>
    if fromPath.isEmpty || toPath.isEmpty then none
    else (integerNumber status).map fun statusCode => ⟨fromPath, toPath, statusCode⟩
  | _ => none

/-- The loop of `parseRedirectsFile`, from the line of this index. -/
def parseLines : Nat → List (List Char) → Except String (List FileRow)
  | _, [] => .ok []
  | index, raw :: rest =>
    let line := trimSpace raw
    if line.isEmpty || line.head? == some '#' then parseLines (index + 1) rest
    else
      match rowOfLine line with
      | none =>
        .error s!"redirect-plan: _redirects line {index + 1} is not \"<from> <to> <status>\": {shown raw}. The static generator writes this file from the redirects table — fix the row there (find_redirects / bulk_create_redirects) and rebuild."
      | some row => (parseLines (index + 1) rest).map fun rows => row :: rows

def parseRedirectsFile (text : List Char) : Except String (List FileRow) := parseLines 0 (lines '\n' text)

/-! ### What is read of a line -/

/-- What can stand between two blanks of a line. -/
def OneWord (s : List Char) : Prop := s ≠ [] ∧ ' ' ∉ s ∧ '\n' ∉ s

theorem oneWord_of_not_blank {s : List Char} (hne : s ≠ []) (h : ∀ c ∈ s, isBlank c = false) : OneWord s := by
  refine ⟨hne, fun hc => ?_, fun hc => ?_⟩
  · exact absurd (h ' ' hc) (by decide)
  · exact absurd (h '\n' hc) (by decide)

theorem splitOn_words {a b c : List Char} (ha : ' ' ∉ a) (hb : ' ' ∉ b) (hc : ' ' ∉ c) :
    (a ++ ' ' :: (b ++ ' ' :: c)).splitOn ' ' = [a, b, c] := by
  have hclean : ∀ s : List Char, ' ' ∉ s → ∀ x ∈ s, (x == ' ') = false := by
    intro s hs x hx
    rw [beq_eq_false_iff_ne]
    rintro rfl
    exact hs hx
  rw [List.splitOn_eq_splitOnP, List.splitOnP_append_cons_of_forall_mem (hclean a ha) ' ' (by decide),
    List.splitOnP_append_cons_of_forall_mem (hclean b hb) ' ' (by decide), List.splitOnP_eq_singleton (hclean c hc)]

theorem natText_status {status : Nat} (h : status = goneStatus ∨ status ∈ redirectStatuses) :
    ' ' ∉ natText status ∧ '\n' ∉ natText status ∧ integerNumber (natText status) = some status ∧
      ∃ last, (natText status).getLast? = some last ∧ isSpace last = false := by
  have hall : ∀ status ∈ goneStatus :: redirectStatuses, ' ' ∉ natText status ∧ '\n' ∉ natText status ∧
      integerNumber (natText status) = some (status : Int) ∧
        ((natText status).getLast?.map isSpace) = some false := by decide
  obtain ⟨hblank, hline, hnumber, hlast⟩ := hall status (List.mem_cons.2 h)
  obtain ⟨last, hlast, hspace⟩ := Option.map_eq_some_iff.1 hlast
  exact ⟨hblank, hline, hnumber, last, hlast, hspace⟩

theorem rowOfLine_tableLine {row : RedirectTableRow} (hfrom : OneWord row.fromPath) (hto : OneWord row.toPath)
    (hstatus : row.statusCode = goneStatus ∨ row.statusCode ∈ redirectStatuses) :
    rowOfLine (tableLine row) = some row.inFile := by
  obtain ⟨hblank, -, hnumber, -⟩ := natText_status hstatus
  unfold rowOfLine tableLine
  rw [splitOn_words hfrom.2.1 hto.2.1 hblank]
  dsimp only
  rw [if_neg (by simp [hfrom.1, hto.1]), hnumber]
  rfl

theorem trimSpace_tableLine {row : RedirectTableRow} (hhead : row.fromPath.head? = some '/')
    (hstatus : row.statusCode = goneStatus ∨ row.statusCode ∈ redirectStatuses) : trimSpace (tableLine row) = tableLine row := by
  obtain ⟨-, -, -, last, hlast, hspace⟩ := natText_status hstatus
  have hne : row.fromPath ≠ [] := by
    intro hnil
    rw [hnil] at hhead
    cases hhead
  refine trim_eq_self (fun c hc => ?_) (fun c hc => ?_)
  · unfold tableLine at hc
    rw [List.head?_append_of_ne_nil _ hne, hhead] at hc
    cases hc
    decide
  · have hline : tableLine row = (row.fromPath ++ ' ' :: (row.toPath ++ [' '])) ++ natText row.statusCode := by
      simp [tableLine]
    rw [hline, List.getLast?_append, hlast] at hc
    cases hc
    exact hspace

/-- What the checks leave to be read back. -/
structure Writable (row : RedirectTableRow) : Prop where
  head : row.fromPath.head? = some '/'
  from_word : OneWord row.fromPath
  status : row.statusCode = goneStatus ∨ row.statusCode ∈ redirectStatuses
  to_word : row.statusCode ≠ goneStatus → OneWord row.toPath

theorem writable_of_rowIssue {row : RedirectTableRow} (h : rowIssue parseUrl row = none) : Writable row := by
  have hok := rowOk_of_rowIssue h
  unfold rowIssue at h
  dsimp only at h
  split at h
  · cases h
  rename_i hpath
  obtain ⟨hhead, hblank⟩ := not_or.1 hpath
  have hhead : row.fromPath.head? = some '/' := by simpa using hhead
  have hblank : row.fromPath.any isBlank = false := by simpa using hblank
  refine ⟨hhead, oneWord_of_not_blank ?_ fun c hc => ?_, hok.status, fun hgone => ?_⟩
  · intro hnil
    rw [hnil] at hhead
    cases hhead
  · simpa using List.any_eq_false.1 hblank c hc
  · have hserv := hok.servable hgone
    refine oneWord_of_not_blank ?_ fun c hc => not_blank_of_servable hserv hc
    intro hnil
    rcases servable_cases hserv with ⟨hext, -⟩ | ⟨-, hhead', -⟩
    · have hhead' := head_of_external hext
      rw [hnil] at hhead'
      cases hhead'
    · rw [hnil] at hhead'
      cases hhead'

theorem parseLines_rows {rows : List RedirectTableRow} (h : ∀ row ∈ rows, Writable row ∧ OneWord row.toPath) :
    ∀ index, parseLines index (rows.map tableLine ++ [[]]) = .ok (rows.map (·.inFile)) := by
  induction rows with
  | nil => exact fun _ => rfl
  | cons row rows ih =>
    intro index
    obtain ⟨hrow, hto⟩ := h row List.mem_cons_self
    have hline : (tableLine row).head? = some '/' := by
      unfold tableLine
      rw [List.head?_append_of_ne_nil _ hrow.from_word.1, hrow.head]
    have hnot : ((tableLine row).isEmpty || (tableLine row).head? == some '#') = false := by
      rw [hline]
      cases hr : tableLine row with
      | nil =>
        rw [hr] at hline
        cases hline
      | cons c rest => rfl
    rw [List.map_cons, List.cons_append]
    unfold parseLines
    rw [trimSpace_tableLine hrow.head hrow.status]
    dsimp only
    rw [hnot, rowOfLine_tableLine hrow.from_word hto hrow.status]
    dsimp only
    rw [ih (fun r hr => h r (List.mem_cons_of_mem _ hr))]
    rfl

theorem oneWord_of_parseLines {ls : List (List Char)} : ∀ {index : Nat} {res : List FileRow}, (∀ l ∈ ls, '\n' ∉ l) →
    parseLines index ls = .ok res → ∀ row ∈ res, OneWord row.toPath := by
  induction ls with
  | nil =>
    intro index res _ h row hrow
    cases h
    cases hrow
  | cons raw rest ih =>
    intro index res hlines h
    have htail : ∀ l ∈ rest, '\n' ∉ l := fun l hl => hlines l (List.mem_cons_of_mem _ hl)
    unfold parseLines at h
    dsimp only at h
    split at h
    · exact ih htail h
    split at h
    · cases h
    rename_i first hfirst
    obtain ⟨rows, hrows, rfl⟩ := exists_of_map_ok h
    intro row hrow
    rcases List.mem_cons.1 hrow with rfl | hrow
    · unfold rowOfLine at hfirst
      split at hfirst
      · rename_i fromPath toPath status hsplit
        split at hfirst
        · cases hfirst
        rename_i hne
        obtain ⟨statusCode, -, rfl⟩ := Option.map_eq_some_iff.1 hfirst
        have hmem : toPath ∈ (trimSpace raw).splitOn ' ' := by
          rw [hsplit]
          simp
        simp only [Bool.or_eq_true, not_or] at hne
        refine ⟨by simpa using hne.2, fun hc => ?_, fun hc => ?_⟩
        · exact absurd (splitOnP_clean hmem ' ' hc) (by decide)
        · have hin := splitOnP_subset hmem '\n' hc
          exact hlines raw List.mem_cons_self (mem_of_mem_trim hin)
      · cases hfirst
    · exact ih htail hrows row hrow

/-! ### Reading back a file -/

theorem parse_formatRedirectsFile_of {rows : List RedirectTableRow} (h : ∀ row ∈ rows, Writable row)
    (hto : ∀ row ∈ rows, OneWord row.toPath) :
    parseRedirectsFile (formatRedirectsFile rows) = .ok (rows.map (·.inFile)) := by
  have hclean : ∀ l ∈ fileHeader :: rows.map tableLine, '\n' ∉ l := by
    intro l hl hc
    rcases List.mem_cons.1 hl with rfl | hl
    · exact absurd hc (by decide)
    obtain ⟨row, hrow, rfl⟩ := List.mem_map.1 hl
    obtain ⟨-, hstatus, -, -⟩ := natText_status (h row hrow).status
    unfold tableLine at hc
    simp only [List.mem_append, List.mem_cons] at hc
    rcases hc with hc | hc | hc | hc | hc
    · exact (h row hrow).from_word.2.2 hc
    · exact absurd hc (by decide)
    · exact (hto row hrow).2.2 hc
    · exact absurd hc (by decide)
    · exact hstatus hc
  unfold parseRedirectsFile formatRedirectsFile
  rw [lines_unlines hclean, List.cons_append]
  have hheader : ∀ rest, parseLines 0 (fileHeader :: rest) = parseLines 1 rest := fun _ => rfl
  rw [hheader]
  exact parseLines_rows (fun row hrow => ⟨h row hrow, hto row hrow⟩) 1

/-- The file of an accepted table is read back as the table exactly when the targets of its gone rows are one word each. -/
theorem parse_formatRedirectsFile {rows : List RedirectTableRow} {style : RedirectPageUrlStyle}
    {servedFiles : List (List Char)} {plan : RedirectPlan}
    (h : buildRedirectPlan parseUrl rows style servedFiles = .ok plan) :
    parseRedirectsFile (formatRedirectsFile rows) = .ok (rows.map (·.inFile)) ↔
      ∀ row ∈ rows, row.statusCode = goneStatus → OneWord row.toPath := by
  obtain ⟨normalised, -, hn, -⟩ := buildRedirectPlan_eq_ok.1 h
  have hissues := (normaliseRows_ok_iff.1 ⟨normalised, hn⟩).issues
  have hwritable : ∀ row ∈ rows, Writable row := fun row hrow => writable_of_rowIssue (hissues row hrow)
  constructor
  · intro hparse row hrow _
    have hlines : ∀ l ∈ lines '\n' (formatRedirectsFile rows), '\n' ∉ l :=
      fun l hl hc => absurd (splitOnP_clean hl '\n' hc) (by decide)
    exact oneWord_of_parseLines hlines hparse row.inFile (List.mem_map_of_mem hrow)
  · intro hgone
    refine parse_formatRedirectsFile_of hwritable fun row hrow => ?_
    by_cases hstatus : row.statusCode = goneStatus
    · exact hgone row hrow hstatus
    · exact (hwritable row hrow).to_word hstatus

theorem parse_formatRedirectsFile_sample :
    parseRedirectsFile (formatRedirectsFile sampleRows) = .ok (sampleRows.map (·.inFile)) ↔
      ∀ row ∈ sampleRows, row.statusCode = goneStatus → OneWord row.toPath := by
  have hplan : buildRedirectPlan (fun _ => none) sampleRows .directory [] = .ok samplePlan := rfl
  exact parse_formatRedirectsFile hplan

def goneRows : List RedirectTableRow := [⟨"/gone".toList, [], 410⟩]

theorem parse_formatRedirectsFile_empty_target :
    ¬ ∀ (parseUrl : List Char → Option Url) (rows : List RedirectTableRow) (style : RedirectPageUrlStyle)
      (servedFiles : List (List Char)) (plan : RedirectPlan), buildRedirectPlan parseUrl rows style servedFiles = .ok plan →
        parseRedirectsFile (formatRedirectsFile rows) = .ok (rows.map (·.inFile)) := by
  intro hall
  have hparse := hall (fun _ => none) goneRows .directory [] ⟨[], [⟨"/gone".toList, matchPathsFor "/gone".toList⟩], []⟩ rfl
  have hlines : ∀ l ∈ lines '\n' (formatRedirectsFile goneRows), '\n' ∉ l :=
    fun l hl hc => absurd (splitOnP_clean hl '\n' hc) (by decide)
  have hword := oneWord_of_parseLines hlines hparse ⟨"/gone".toList, [], 410⟩ (by decide)
  exact hword.1 rfl

end CaeloCms.Redirect
