import Mathlib.Data.List.Basic

namespace Cfengine.Csv
open List

structure CsvWriter where
  w : List Char
  beginningOfLine : Bool

def csvWriterOpen : CsvWriter := ⟨[],true⟩

def special (c : Char) : Bool := c == '"' || c == ',' || c == '\r' || c == '\n'

def writeCsvEscapedString (s : List Char) : List Char :=
  '"' :: ((s.flatMap fun c => if c = '"' then ['"',c] else [c])++['"'])

def fieldText (str : List Char) : List Char := if str.any special then writeCsvEscapedString str else str

def csvWriterField (csvw : CsvWriter) (str : List Char) : CsvWriter :=
  ⟨(if csvw.beginningOfLine then csvw.w else csvw.w++[','])++fieldText str,false⟩

def csvWriterNewRecord (csvw : CsvWriter) : CsvWriter := ⟨csvw.w++['\r','\n'],true⟩

def csvWriterClose (csvw : CsvWriter) : List Char :=
  if csvw.beginningOfLine then csvw.w else csvw.w++['\r','\n']

-- Where a reader of RFC 4180 is: before a field, in one without and in one with quotes,
-- behind a quote in the latter, and behind the CR of a record end.
inductive Mode where
  | start | plain | quoted | closing | ending
deriving DecidableEq

def readCsv (mode : Mode) (field : List Char) (fields : List (List Char)) : List Char → Option (List (List (List Char)))
  | [] => if mode = .start ∧ fields = [] then some [] else none
  | c :: rest =>
    match mode with
    | .quoted => if c = '"' then readCsv .closing field fields rest else readCsv .quoted (field++[c]) fields rest
    | .ending => if c = '\n' then (readCsv .start [] [] rest).map ((fields++[field]) :: ·) else none
    | mode =>
      if c = ',' then readCsv .start [] (fields++[field]) rest
      else if c = '\r' then readCsv .ending field fields rest
      else if c = '"' then
        if mode = .plain then none else readCsv .quoted (if mode = .start then [] else field++[c]) fields rest
      else if c = '\n' ∨ mode = .closing then none
      else readCsv .plain (field++[c]) fields rest

theorem plain_read (field : List Char) (free : ∀ c ∈ str, special c = false) :
    readCsv .plain field fields (str++rest) = readCsv .plain (field++str) fields rest := by
  induction str generalizing field with
  | nil => simp
  | cons c str ih =>
    have other := free c (by simp)
    simp only [special,Bool.or_eq_false_iff,beq_eq_false_iff_ne] at other
    obtain ⟨⟨⟨quote,comma⟩,cr⟩,lf⟩ := other
    have following := ih (field++[c]) fun d mem => free d (by simp [mem])
    simpa [readCsv,quote,comma,cr,lf] using following

theorem quoted_read (field : List Char) :
    readCsv .quoted field fields ((str.flatMap fun c => if c = '"' then ['"',c] else [c])++ '"' :: rest) =
      readCsv .closing (field++str) fields rest := by
  induction str generalizing field with
  | nil => simp [readCsv]
  | cons c str ih =>
    have following := ih (field++[c])
    by_cases quote : c = '"'
    · simpa [readCsv,quote] using following
    · simpa [readCsv,quote] using following

-- A field is read as what was written, whether another one or the end of the record follows.
theorem field_read : readCsv .start [] fields (fieldText str++ ',' :: rest) = readCsv .start [] (fields++[str]) rest ∧
      readCsv .start [] fields (fieldText str++ '\r' :: '\n' :: rest) =
        (readCsv .start [] [] rest).map ((fields++[str]) :: ·) := by
  rw [fieldText]
  split
  · have read : ∀ rest, readCsv .start [] fields (writeCsvEscapedString str++rest) = readCsv .closing str fields rest := by
      intro rest
      simpa [writeCsvEscapedString,readCsv] using quoted_read []
    exact ⟨read _,read _⟩
  · rename_i plain
    have free : ∀ c ∈ str, special c = false := by simpa using plain
    cases str with
    | nil => exact ⟨rfl,rfl⟩
    | cons c str =>
      have read : ∀ rest, readCsv .start [] fields (c :: str++rest) = readCsv .plain (c :: str) fields rest := by
        intro rest
        rw [← nil_append (c :: str),← plain_read [] free]
        have other := free c (by simp)
        simp only [special,Bool.or_eq_false_iff,beq_eq_false_iff_ne] at other
        simp [readCsv,other]
      exact ⟨read _,read _⟩

def recordText : List (List Char) → List Char
  | [] => ['\r','\n']
  | [str] => fieldText str++['\r','\n']
  | str :: next :: others => fieldText str++ ',' :: recordText (next :: others)

theorem record_read (fields : List (List Char)) : ∀ {record : List (List Char)}, record ≠ [] →
    readCsv .start [] fields (recordText record++rest) = (readCsv .start [] [] rest).map ((fields++record) :: ·)
  | [],filled => absurd rfl filled
  | [str],_ => by
    rw [recordText,append_assoc]
    exact field_read.2
  | str :: next :: others,_ => by
    rw [recordText,append_assoc,cons_append,field_read.1,record_read (fields++[str]) (cons_ne_nil next others),
      append_assoc,singleton_append]

theorem records_read (filled : ∀ record ∈ records, record ≠ []) :
    readCsv .start [] [] (records.flatMap recordText) = some records := by
  induction records with
  | nil => rfl
  | cons record records ih =>
    rw [flatMap_cons,record_read [] (filled record (by simp)),ih fun later mem => filled later (by simp [mem])]
    rfl

theorem record_written (line : Bool) (text : List Char) : ∀ {record : List (List Char)}, record ≠ [] →
    csvWriterClose (record.foldl csvWriterField ⟨text,line⟩) = (if line then text else text++[','])++recordText record ∧
      csvWriterNewRecord (record.foldl csvWriterField ⟨text,line⟩) =
        ⟨(if line then text else text++[','])++recordText record,true⟩
  | [],filled => absurd rfl filled
  | [str],_ => by simp [csvWriterField,csvWriterClose,csvWriterNewRecord,recordText]
  | str :: next :: others,_ => by
    have following := record_written false ((if line then text else text++[','])++fieldText str) (cons_ne_nil next others)
    rw [recordText,foldl_cons,csvWriterField]
    simpa using following

def writeRecord (csvw : CsvWriter) (record : List (List Char)) : CsvWriter := csvWriterNewRecord (record.foldl csvWriterField csvw)

theorem records_written (filled : ∀ record ∈ records, record ≠ []) (text : List Char) :
    List.foldl writeRecord ⟨text,true⟩ records = ⟨text++records.flatMap recordText,true⟩ := by
  induction records generalizing text with
  | nil => simp
  | cons record records ih =>
    rw [foldl_cons,writeRecord,(record_written true text (filled record (by simp))).2,if_pos rfl,
      ih fun later mem => filled later (by simp [mem]),flatMap_cons,append_assoc]

-- The last record may be ended by a call of its own or by closing the writer.
theorem csv_read (records : List (List (List Char))) (last : List (List Char)) (filled : ∀ record ∈ records, record ≠ [])
    (begun : last ≠ []) :
    readCsv .start [] [] (csvWriterClose (records.foldl writeRecord csvWriterOpen)) = some records ∧
      readCsv .start [] [] (csvWriterClose (last.foldl csvWriterField (records.foldl writeRecord csvWriterOpen))) =
        some (records++[last]) := by
  rw [csvWriterOpen,records_written filled,nil_append,(record_written true _ begun).1,if_pos rfl]
  refine ⟨records_read filled,?_⟩
  have extended : ∀ record ∈ records++[last], record ≠ [] := by
    intro record mem
    rcases mem_append.mp mem with early | late
    · exact filled record early
    · rw [mem_singleton.mp late]
      exact begun
  simpa using records_read extended

theorem quotes_read : readCsv .start [] [] "a,\"b\"\"\"\r\n\r\n".toList = some [["a".toList,"b\"".toList],[[]]] := by
  have read := (csv_read [["a".toList,"b\"".toList]] [[]] (by simp) (by simp)).2
  exact read

end Cfengine.Csv
