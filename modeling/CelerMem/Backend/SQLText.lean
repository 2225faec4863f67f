import CelerMem.Core.Types
import CelerMem.Library.Scanner

/-! The SQL texts of `SQLiteBackend`. All of them name one table or savepoint, and the name is
put between quotation marks. SQLite reads each text as one statement on that name. -/
namespace CelerMem

/-- `[a-zA-Z0-9_]` -/
def identChar (c : Byte) : Bool :=
  (97 ≤ c && c ≤ 122) || (65 ≤ c && c ≤ 90) || (48 ≤ c && c ≤ 57) || c == 95

def validateIdent (name : Bytes) : VoidResult :=
  if name.isEmpty then .error ⟨"SQLiteValidation", "identifier must not be empty"⟩
  else if name.all identChar then .ok ()
  else .error ⟨"SQLiteValidation",
    "identifier contains invalid character: only [a-zA-Z0-9_] allowed"⟩

/-- The character `"`. -/
def quoteMark : Byte := 34

/-- Strips every NUL and doubles every mark. -/
def quoteIdent (name : Bytes) : Bytes :=
  quoteMark :: (name.flatMap fun c =>
    if c = 0 then [] else if c = quoteMark then [quoteMark, c] else [c]) ++ [quoteMark]

/-- What is left of a name between the marks. -/
def withoutNul (name : Bytes) : Bytes := name.filter (· ≠ 0)

/-- The statements, less the name. `selectIn` is the one of `get_many` for so many keys. -/
inductive SqlForm where
  | createTable
  | selectValue
  | insertOrReplace
  | deleteWhereKey
  | selectAll
  | selectAtLeast
  | selectBetween
  | selectIn (cnt : Nat)
  | savepoint
  | release
  | rollbackTo
deriving DecidableEq

namespace SqlForm

/-- The loop of `get_many` that writes the parameters. -/
def parameters (cnt : Nat) : Bytes :=
  (List.range cnt).flatMap fun i => ascii (if i = 0 then "?" else ",?")

def before : SqlForm → Bytes
  | .createTable => ascii "CREATE TABLE IF NOT EXISTS "
  | .selectValue => ascii "SELECT value FROM "
  | .insertOrReplace => ascii "INSERT OR REPLACE INTO "
  | .deleteWhereKey => ascii "DELETE FROM "
  | .selectAll | .selectAtLeast | .selectBetween | .selectIn _ => ascii "SELECT key, value FROM "
  | .savepoint => ascii "SAVEPOINT "
  | .release => ascii "RELEASE "
  | .rollbackTo => ascii "ROLLBACK TO "

def after : SqlForm → Bytes
  | .createTable => ascii " (key TEXT PRIMARY KEY, value BLOB NOT NULL)"
  | .selectValue | .deleteWhereKey => ascii " WHERE key = ?"
  | .insertOrReplace => ascii " (key, value) VALUES (?, ?)"
  | .selectAll => ascii " ORDER BY key"
  | .selectAtLeast => ascii " WHERE key >= ? ORDER BY key"
  | .selectBetween => ascii " WHERE key >= ? AND key < ? ORDER BY key"
  | .selectIn cnt => ascii " WHERE key IN (" ++ parameters cnt ++ ascii ")"
  | .savepoint | .release | .rollbackTo => []

/-- The text that the backend passes on. -/
def text (form : SqlForm) (name : Bytes) : Bytes := form.before ++ quoteIdent name ++ form.after

end SqlForm

/-! ## How SQLite reads a text -/

/-- Words are in lower case, since SQL ignores it. -/
inductive SqlToken where
  | word (letters : Bytes)
  | name (text : Bytes)
  | symbol (c : Byte)
  | atLeast
deriving DecidableEq

def SqlToken.isName : SqlToken → Bool
  | .name _ => true
  | .word _ | .symbol _ | .atLeast => false

/-- Where a scanner is. Behind a mark it does not know yet whether the name ends there. -/
inductive ScanState where
  | between
  | word (letters : Bytes)
  | inside (text : Bytes)
  | closing (text : Bytes)
  | operator (c : Byte)
  | refused
deriving DecidableEq

/-- ASCII letters only. -/
def lower (c : Byte) : Byte := if 65 ≤ c ∧ c ≤ 90 then c + 32 else c

def letter (c : Byte) : Bool := 97 ≤ lower c && lower c ≤ 122

/-- Tokens of one character that no other character goes on with. -/
def punctuation : Bytes := ascii "(),"

/-- Characters that may be a token or the first one of a longer token. -/
def operators : Bytes := ascii "<=>?"

/-- Every token that is not quoted ends before one of these, and so does a quoted one. -/
def delimiters : Bytes := ascii " (),"

/-- The token that is written like this. -/
def sqlToken (s : String) : SqlToken :=
  match ascii s with
  | [c] => if identChar c then .word [c] else .symbol c
  | letters => if letters = [62, 61] then .atLeast else .word letters

namespace SqlForm

/-- The grammar of the statements, up to the name. -/
def head : SqlForm → List SqlToken
  | .createTable => ["create", "table", "if", "not", "exists"].map sqlToken
  | .selectValue => ["select", "value", "from"].map sqlToken
  | .insertOrReplace => ["insert", "or", "replace", "into"].map sqlToken
  | .deleteWhereKey => ["delete", "from"].map sqlToken
  | .selectAll | .selectAtLeast | .selectBetween | .selectIn _ =>
      ["select", "key", ",", "value", "from"].map sqlToken
  | .savepoint => ["savepoint"].map sqlToken
  | .release => ["release"].map sqlToken
  | .rollbackTo => ["rollback", "to"].map sqlToken

/-- A list of so many parameters. -/
def listed (cnt : Nat) : List SqlToken :=
  (List.replicate cnt (sqlToken "?")).intersperse (sqlToken ",")

/-- The grammar behind the name. -/
def tail : SqlForm → List SqlToken
  | .createTable => ["(", "key", "text", "primary", "key", ",", "value", "blob", "not", "null",
      ")"].map sqlToken
  | .selectValue | .deleteWhereKey => ["where", "key", "=", "?"].map sqlToken
  | .insertOrReplace =>
      ["(", "key", ",", "value", ")", "values", "(", "?", ",", "?", ")"].map sqlToken
  | .selectAll => ["order", "by", "key"].map sqlToken
  | .selectAtLeast => ["where", "key", ">=", "?", "order", "by", "key"].map sqlToken
  | .selectBetween =>
      ["where", "key", ">=", "?", "and", "key", "<", "?", "order", "by", "key"].map sqlToken
  | .selectIn cnt => ["where", "key", "in", "("].map sqlToken ++ listed cnt ++ [sqlToken ")"]
  | .savepoint | .release | .rollbackTo => []

/-- The only `selectIn` that a text can be has one key for each parameter in it. -/
def candidates (cnt : Nat) : List SqlForm :=
  [.createTable, .selectValue, .insertOrReplace, .deleteWhereKey, .selectAll, .selectAtLeast,
    .selectBetween, .selectIn cnt, .savepoint, .release, .rollbackTo]

/-- The statement that these tokens are, and the name in it. -/
def ofTokens (tokens : List SqlToken) : Option (SqlForm × Bytes) :=
  match tokens.span fun t => !t.isName with
  | (head, .name name :: tail) =>
      ((candidates (tail.count (sqlToken "?"))).find? fun form =>
        form.head = head ∧ form.tail = tail).map (·, name)
  | _ => none

end SqlForm

/-- A text is a C string. -/
def cString (sql : Bytes) : Bytes := sql.takeWhile (· ≠ 0)

/-- SQLite's own way through a text: its scanner, the grammar, and how long a text may be. -/
structure SqlReader (σ : Type) where
  step : σ → Byte → List SqlToken × σ
  state : ScanState → σ
  last : σ → Option (List SqlToken)
  statement : List SqlToken → Option (SqlForm × Bytes)
  maxLength : Nat

namespace SqlReader
variable {σ : Type}

def tokenize (r : SqlReader σ) (sql : Bytes) : Option (List SqlToken) :=
  let (tokens, s) := Scanner.run r.step sql (r.state .between)
  (r.last s).map (tokens ++ ·)

/-- What is read in a text, if it is one of these statements. -/
def read (r : SqlReader σ) (sql : Bytes) : Option (SqlForm × Bytes) :=
  let sql := cString sql
  if sql.length ≤ r.maxLength then (r.tokenize sql).bind r.statement else none

/-- What SQLite documents about the lexical elements that the texts are made of: blanks, words,
quoted names in which a mark is doubled, punctuation and operators. -/
structure Lexical (r : SqlReader σ) : Prop where
  blank : r.step (r.state .between) 32 = ([], r.state .between)
  word : ∀ c, letter c = true → r.step (r.state .between) c = ([], r.state (.word [lower c]))
  more : ∀ letters c, identChar c = true →
    r.step (r.state (.word letters)) c = ([], r.state (.word (letters ++ [lower c])))
  opening : r.step (r.state .between) quoteMark = ([], r.state (.inside []))
  quotes : Scanner.Quotes r.step quoteMark (fun text => r.state (.inside text))
    fun text => r.state (.closing text)
  punctuation : ∀ c ∈ punctuation, r.step (r.state .between) c = ([.symbol c], r.state .between)
  operator : ∀ c ∈ operators, r.step (r.state .between) c = ([], r.state (.operator c))
  atLeast : r.step (r.state (.operator 62)) 61 = ([.atLeast], r.state .between)
  wordEnds : ∀ letters, ∀ c ∈ delimiters, r.step (r.state (.word letters)) c =
    (.word letters :: (r.step (r.state .between) c).1, (r.step (r.state .between) c).2)
  nameEnds : ∀ text, ∀ c ∈ delimiters, r.step (r.state (.closing text)) c =
    (.name text :: (r.step (r.state .between) c).1, (r.step (r.state .between) c).2)
  operatorEnds : ∀ o ∈ operators, ∀ c ∈ delimiters, r.step (r.state (.operator o)) c =
    (.symbol o :: (r.step (r.state .between) c).1, (r.step (r.state .between) c).2)
  lastBetween : r.last (r.state .between) = some []
  lastWord : ∀ letters, r.last (r.state (.word letters)) = some [.word letters]
  lastName : ∀ text, r.last (r.state (.closing text)) = some [.name text]
  lastOperator : ∀ o ∈ operators, r.last (r.state (.operator o)) = some [.symbol o]

/-- The tokens of each statement are that statement. -/
def Grammar (r : SqlReader σ) : Prop :=
  ∀ form name, r.statement (form.head ++ .name name :: form.tail) = some (form, name)

end SqlReader

/-! ## A reader that knows no other texts -/

/-- A character behind a token. -/
def startToken (c : Byte) : List SqlToken × ScanState :=
  if c = quoteMark then ([], .inside [])
  else if letter c then ([], .word [lower c])
  else if c = 32 then ([], .between)
  else if c ∈ operators then ([], .operator c)
  else if c ∈ punctuation then ([.symbol c], .between)
  else ([], .refused)

/-- A character that ends a token. -/
def endToken (token : SqlToken) (c : Byte) : List SqlToken × ScanState :=
  if c ∈ delimiters then (token :: (startToken c).1, (startToken c).2) else ([], .refused)

def scanStep : ScanState → Byte → List SqlToken × ScanState
  | .between, c => startToken c
  | .word letters, c =>
      if identChar c then ([], .word (letters ++ [lower c])) else endToken (.word letters) c
  | .inside text, c =>
      if c = quoteMark then ([], .closing text) else ([], .inside (text ++ [c]))
  | .closing text, c =>
      if c = quoteMark then ([], .inside (text ++ [c])) else endToken (.name text) c
  | .operator o, c =>
      if o = 62 ∧ c = 61 then ([.atLeast], .between)
      else if o ∈ operators then endToken (.symbol o) c
      else ([], .refused)
  | .refused, _ => ([], .refused)

/-- The token that the end of the text ends, if the text may end there. -/
def ScanState.last : ScanState → Option (List SqlToken)
  | .between => some []
  | .word letters => some [.word letters]
  | .closing text => some [.name text]
  | .operator o => if o ∈ operators then some [.symbol o] else none
  | .inside _ | .refused => none

def plainReader : SqlReader ScanState where
  step := scanStep
  state := id
  last := ScanState.last
  statement := SqlForm.ofTokens
  maxLength := 1000000000

/-! ## Names -/

open Scanner

theorem quoteIdent_eq (name : Bytes) : quoteIdent name = quote quoteMark (withoutNul name) := by
  induction name with
  | nil => rfl
  | cons c name ih =>
      simp only [quoteIdent, quote, withoutNul, doubled, List.cons_append, List.cons.injEq,
        true_and] at ih
      simp only [quoteIdent, quote, withoutNul, doubled, List.flatMap_cons, List.cons_append,
        List.append_assoc, ih, List.cons.injEq, true_and]
      by_cases hNul : c = 0
      · simp [hNul]
      · rw [List.filter_cons_of_pos (by simpa using hNul), List.flatMap_cons, if_neg hNul]
        by_cases hMark : c = quoteMark
        · simp [hMark]
        · simp [hMark]

theorem nul_not_mem_quoteIdent (name : Bytes) : (0 : Byte) ∉ quoteIdent name := by
  intro hMem
  rw [quoteIdent, List.cons_append, List.mem_cons, List.mem_append, List.mem_flatMap] at hMem
  rcases hMem with h | ⟨c, -, hIn⟩ | h
  · exact absurd h (by decide)
  · split at hIn
    · cases hIn
    · rename_i hNul
      split at hIn
      · simp [Ne.symm hNul, quoteMark] at hIn
      · exact hNul (List.mem_singleton.mp hIn).symm
  · exact absurd h (by decide)

theorem quoteIdent_length_le (name : Bytes) :
    (quoteIdent name).length ≤ 2 * name.length + 2 := by
  have hInside : ∀ c : Byte,
      (if c = 0 then [] else if c = quoteMark then [quoteMark, c] else [c]).length ≤ 2 := by
    intro c
    split_ifs <;> simp
  have hAll := List.sum_le_card_nsmul (name.map fun c =>
    (if c = 0 then [] else if c = quoteMark then [quoteMark, c] else [c]).length) 2
  simp only [List.forall_mem_map, hInside, implies_true, forall_const, List.length_map,
    smul_eq_mul] at hAll
  simp only [quoteIdent, List.length_append, List.length_cons, List.length_flatMap,
    List.length_nil]
  omega

/-- A name that passes the check stands for itself. -/
theorem withoutNul_of_valid {name : Bytes} (h : validateIdent name = .ok ()) :
    withoutNul name = name := by
  unfold validateIdent at h
  split at h
  · cases h
  · split at h
    · rename_i hAll
      rw [withoutNul, List.filter_eq_self]
      intro c hMem
      have hChar := List.all_eq_true.mp hAll c hMem
      have hNul : identChar 0 = false := by decide
      rw [decide_eq_true_iff]
      rintro rfl
      rw [hNul] at hChar
      cases hChar
    · cases h

theorem scanStep_quotes : Quotes scanStep quoteMark .inside .closing where
  other l a h := by simp [scanStep, h]
  marked l := by simp [scanStep]
  again l := by simp [scanStep]

/-! ## Texts -/

namespace SqlForm

theorem run_before (form : SqlForm) :
    run scanStep form.before .between = (form.head, .between) := by
  have hPairs : run scanStep SqlForm.selectAll.before .between =
      (SqlForm.selectAll.head, .between) := by decide
  cases form with
  | createTable => decide
  | selectValue => decide
  | insertOrReplace => decide
  | deleteWhereKey => decide
  | selectAll => exact hPairs
  | selectAtLeast => exact hPairs
  | selectBetween => exact hPairs
  | selectIn cnt => exact hPairs
  | savepoint => decide
  | release => decide
  | rollbackTo => decide

/-- All parameters but the last have a comma behind them. -/
theorem listed_succ (cnt : Nat) : listed (cnt + 1) =
    ((List.range cnt).flatMap fun _ => [sqlToken "?", sqlToken ","]) ++ [sqlToken "?"] := by
  induction cnt with
  | zero => rfl
  | succ n ih =>
      have hNext : listed (n + 2) = sqlToken "?" :: sqlToken "," :: listed (n + 1) := rfl
      rw [hNext, ih, List.range_succ_eq_map, List.flatMap_cons, List.flatMap_map]
      rfl

/-- A parameter is a token as soon as the comma behind it has been read. -/
theorem run_more (l : List Nat) : run scanStep (l.flatMap fun _ => ascii ",?") (.operator 63) =
    (l.flatMap fun _ => [sqlToken "?", sqlToken ","], .operator 63) := by
  induction l with
  | nil => rfl
  | cons i l ih =>
      have hFirst : run scanStep (ascii ",?") (.operator 63) =
          ([sqlToken "?", sqlToken ","], .operator 63) := by decide
      exact run_trans hFirst ih

theorem run_parameters (cnt : Nat) : run scanStep (parameters cnt ++ ascii ")") .between =
    (listed cnt ++ [sqlToken ")"], .between) := by
  cases cnt with
  | zero => decide
  | succ n =>
      have hFirst : run scanStep (ascii "?") .between = ([], .operator 63) := by decide
      have hLast : run scanStep (ascii ")") (.operator 63) =
          ([sqlToken "?", sqlToken ")"], .between) := by decide
      have hAll := run_trans (run_trans hFirst (run_more (List.range n))) hLast
      rw [parameters, List.range_succ_eq_map, List.flatMap_cons, List.flatMap_map, listed_succ,
        List.append_assoc _ [sqlToken "?"]]
      exact hAll

/-- The part behind the name, with what the end of the text adds. -/
theorem run_after (form : SqlForm) (name : Bytes) :
    ∃ tokens s last, run scanStep form.after (.closing name) = (tokens, s) ∧ s.last = some last ∧
      tokens ++ last = .name name :: form.tail := by
  cases form with
  | createTable => exact ⟨_, _, _, rfl, rfl, rfl⟩
  | selectValue => exact ⟨_, _, _, rfl, rfl, rfl⟩
  | insertOrReplace => exact ⟨_, _, _, rfl, rfl, rfl⟩
  | deleteWhereKey => exact ⟨_, _, _, rfl, rfl, rfl⟩
  | selectAll => exact ⟨_, _, _, rfl, rfl, rfl⟩
  | selectAtLeast => exact ⟨_, _, _, rfl, rfl, rfl⟩
  | selectBetween => exact ⟨_, _, _, rfl, rfl, rfl⟩
  | selectIn cnt =>
      have hFirst : run scanStep (ascii " WHERE key IN (") (.closing name) =
          (.name name :: ["where", "key", "in", "("].map sqlToken, .between) := rfl
      have hAll := run_trans hFirst (run_parameters cnt)
      rw [← List.append_assoc] at hAll
      exact ⟨_, _, [], hAll, rfl, by simp [tail]⟩
  | savepoint => exact ⟨_, _, _, rfl, rfl, rfl⟩
  | release => exact ⟨_, _, _, rfl, rfl, rfl⟩
  | rollbackTo => exact ⟨_, _, _, rfl, rfl, rfl⟩

/-- The whole text, with what its end adds. -/
theorem run_text (form : SqlForm) (name : Bytes) :
    ∃ tokens s last, run scanStep (form.text name) .between = (tokens, s) ∧ s.last = some last ∧
      tokens ++ last = form.head ++ .name (withoutNul name) :: form.tail := by
  obtain ⟨tokens, s, last, hAfter, hLast, hTokens⟩ := run_after form (withoutNul name)
  have hName : run scanStep (quoteIdent name) .between = ([], .closing (withoutNul name)) := by
    rw [quoteIdent_eq]
    exact scanStep_quotes.run_quote rfl _
  refine ⟨_, _, last, run_trans (run_trans (run_before form) hName) hAfter, hLast, ?_⟩
  rw [List.append_nil, List.append_assoc, hTokens]

/-- No text ends early: a NUL is in none of its parts. -/
theorem cString_text (form : SqlForm) (name : Bytes) :
    cString (form.text name) = form.text name := by
  have hParameters : ∀ cnt, (0 : Byte) ∉ parameters cnt := by
    intro cnt hMem
    rw [parameters, List.mem_flatMap] at hMem
    obtain ⟨i, -, hIn⟩ := hMem
    split at hIn
    · revert hIn; decide
    · revert hIn; decide
  have hBefore : (0 : Byte) ∉ form.before := by
    cases form with
    | selectIn cnt =>
        exact (by decide : (0 : Byte) ∉ SqlForm.selectAll.before)
    | _ => decide
  have hAfter : (0 : Byte) ∉ form.after := by
    cases form with
    | selectIn cnt =>
        have hFirst : (0 : Byte) ∉ ascii " WHERE key IN (" := by decide
        have hLast : (0 : Byte) ∉ ascii ")" := by decide
        simp only [after, List.mem_append, hFirst, hParameters cnt, hLast, or_self,
          not_false_eq_true]
    | _ => decide
  have hName := nul_not_mem_quoteIdent name
  rw [cString, List.takeWhile_eq_self_iff]
  intro c hMem
  rw [decide_eq_true_iff]
  rintro rfl
  rw [text, List.mem_append, List.mem_append] at hMem
  rcases hMem with (h | h) | h
  · exact hBefore h
  · exact hName h
  · exact hAfter h

/-! ## Statements -/

theorem count_listed (cnt : Nat) : (listed cnt).count (sqlToken "?") = cnt := by
  cases cnt with
  | zero => rfl
  | succ n =>
      have hRest : ((List.range n).flatMap fun _ => [sqlToken "?", sqlToken ","]).count
          (sqlToken "?") = n := by
        induction n with
        | zero => rfl
        | succ n ih =>
            have hTwo : [sqlToken "?", sqlToken ","].count (sqlToken "?") = 1 := by decide
            rw [List.range_succ, List.flatMap_append, List.count_append, ih,
              List.flatMap_singleton, hTwo]
      rw [listed_succ, List.count_append, hRest, List.count_singleton_self]

/-- The tokens before and behind the name tell which statement it is. -/
theorem find_candidate (form : SqlForm) :
    (candidates (form.tail.count (sqlToken "?"))).find? (fun other =>
      other.head = form.head ∧ other.tail = form.tail) = some form := by
  cases form with
  | selectIn cnt =>
      have hFirst : (["where", "key", "in", "("].map sqlToken).count (sqlToken "?") = 0 := by
        decide
      have hLast : [sqlToken ")"].count (sqlToken "?") = 0 := by decide
      have hCount : (SqlForm.selectIn cnt).tail.count (sqlToken "?") = cnt := by
        rw [tail, List.count_append, List.count_append, hFirst, hLast, count_listed, Nat.zero_add,
          Nat.add_zero]
      -- The statements before this one differ in their head, or at the third token behind it.
      have hHead : ∀ other ∈ [createTable, selectValue, insertOrReplace, deleteWhereKey],
          other.head ≠ SqlForm.selectAll.head := by decide
      have hThird : ∀ other ∈ [selectAll, selectAtLeast, selectBetween],
          other.tail.take 3 ≠ ["where", "key", "in"].map sqlToken := by decide
      have hTail : ∀ other ∈ [selectAll, selectAtLeast, selectBetween],
          other.tail ≠ (SqlForm.selectIn cnt).tail :=
        fun other hMem hSame => hThird other hMem (congrArg (List.take 3) hSame)
      simp only [List.forall_mem_cons, List.not_mem_nil, IsEmpty.forall_iff, implies_true,
        and_true] at hHead hTail
      have hSelect : (SqlForm.selectIn cnt).head = SqlForm.selectAll.head := rfl
      simp [hCount, candidates, hSelect, hHead, hTail]
  | _ => decide

theorem head_isName (form : SqlForm) : ∀ token ∈ form.head, token.isName = false := by
  cases form with
  | selectIn cnt =>
      exact (by decide : ∀ token ∈ SqlForm.selectAll.head, token.isName = false)
  | _ => decide

theorem ofTokens_eq (form : SqlForm) (name : Bytes) :
    ofTokens (form.head ++ .name name :: form.tail) = some (form, name) := by
  have hSpan : (form.head ++ .name name :: form.tail).span (fun t => !t.isName) =
      (form.head, .name name :: form.tail) := by
    have hAll : ∀ token ∈ form.head, (!token.isName) = true :=
      fun token hMem => by rw [head_isName form token hMem]; rfl
    rw [List.span_eq_takeWhile_dropWhile, List.takeWhile_append_of_pos hAll,
      List.dropWhile_append_of_pos hAll]
    simp [SqlToken.isName]
  rw [ofTokens, hSpan]
  dsimp only
  rw [find_candidate]
  rfl

end SqlForm

/-! ## Every reader -/

namespace SqlReader
variable {σ : Type} {r : SqlReader σ}

theorem step_between (h : r.Lexical) {c : Byte} (hGoes : (startToken c).2 ≠ .refused) :
    r.step (r.state .between) c = ((startToken c).1, r.state (startToken c).2) := by
  unfold startToken at hGoes ⊢
  by_cases hMark : c = quoteMark
  · rw [if_pos hMark, hMark]
    exact h.opening
  by_cases hLetter : letter c = true
  · rw [if_neg hMark, if_pos hLetter]
    exact h.word c hLetter
  by_cases hBlank : c = 32
  · rw [if_neg hMark, if_neg hLetter, if_pos hBlank, hBlank]
    exact h.blank
  by_cases hOperator : c ∈ operators
  · rw [if_neg hMark, if_neg hLetter, if_neg hBlank, if_pos hOperator]
    exact h.operator c hOperator
  by_cases hPunctuation : c ∈ punctuation
  · rw [if_neg hMark, if_neg hLetter, if_neg hBlank, if_neg hOperator, if_pos hPunctuation]
    exact h.punctuation c hPunctuation
  · rw [if_neg hMark, if_neg hLetter, if_neg hBlank, if_neg hOperator, if_neg hPunctuation] at hGoes
    exact absurd rfl hGoes

/-- A token that ends at each delimiter ends where the plain reader ends it. -/
theorem step_end (h : r.Lexical) {s : ScanState} {token : SqlToken}
    (hEnds : ∀ c ∈ delimiters, r.step (r.state s) c =
      (token :: (r.step (r.state .between) c).1, (r.step (r.state .between) c).2))
    {c : Byte} (hGoes : (endToken token c).2 ≠ .refused) :
    r.step (r.state s) c = ((endToken token c).1, r.state (endToken token c).2) := by
  have hStarts : ∀ c ∈ delimiters, (startToken c).2 ≠ .refused := by decide +kernel
  unfold endToken at hGoes ⊢
  split at hGoes
  next hMem => rw [if_pos hMem, hEnds c hMem, step_between h (hStarts c hMem)]
  next => exact absurd rfl hGoes

/-- Where the plain reader goes on, every reader does the same. -/
theorem step_eq (h : r.Lexical) {s : ScanState} {c : Byte} (hGoes : (scanStep s c).2 ≠ .refused) :
    r.step (r.state s) c = ((scanStep s c).1, r.state (scanStep s c).2) := by
  cases s with
  | between => exact step_between h hGoes
  | word letters =>
      by_cases hChar : identChar c = true
      · simp only [scanStep, if_pos hChar]
        exact h.more letters c hChar
      · simp only [scanStep, if_neg hChar] at hGoes ⊢
        exact step_end h (h.wordEnds letters) hGoes
  | inside text =>
      by_cases hMark : c = quoteMark
      · simp only [scanStep, if_pos hMark]
        rw [hMark]
        exact h.quotes.marked text
      · simp only [scanStep, if_neg hMark]
        exact h.quotes.other text c hMark
  | closing text =>
      by_cases hMark : c = quoteMark
      · simp only [scanStep, if_pos hMark]
        rw [hMark]
        exact h.quotes.again text
      · simp only [scanStep, if_neg hMark] at hGoes ⊢
        exact step_end h (h.nameEnds text) hGoes
  | operator o =>
      by_cases hTwo : o = 62 ∧ c = 61
      · simp only [scanStep, if_pos hTwo]
        rw [hTwo.1, hTwo.2]
        exact h.atLeast
      · by_cases hOperator : o ∈ operators
        · simp only [scanStep, if_neg hTwo, if_pos hOperator] at hGoes ⊢
          exact step_end h (h.operatorEnds o hOperator) hGoes
        · simp only [scanStep, if_neg hTwo, if_neg hOperator, ne_eq, not_true_eq_false] at hGoes
  | refused => exact absurd rfl hGoes

theorem run_refused (l : Bytes) : run scanStep l .refused = ([], .refused) := by
  induction l with
  | nil => rfl
  | cons c l ih =>
      rw [run_cons]
      exact Prod.ext (congrArg Prod.fst ih) (congrArg Prod.snd ih)

theorem run_eq (h : r.Lexical) {sql : Bytes} {s s' : ScanState} {tokens : List SqlToken}
    (hRun : run scanStep sql s = (tokens, s')) (hGoes : s' ≠ .refused) :
    run r.step sql (r.state s) = (tokens, r.state s') := by
  induction sql generalizing s tokens with
  | nil =>
      obtain ⟨rfl, rfl⟩ := Prod.mk.inj hRun
      rfl
  | cons c sql ih =>
      rw [run_cons] at hRun
      have hFirst : (scanStep s c).2 ≠ .refused := by
        intro hRefused
        rw [hRefused, run_refused] at hRun
        exact hGoes (Prod.mk.inj hRun).2.symm
      obtain ⟨rfl, hRest⟩ := Prod.mk.inj hRun
      rw [run_cons, step_eq h hFirst, ih (Prod.ext rfl hRest)]

theorem last_eq (h : r.Lexical) {s : ScanState} {last : List SqlToken}
    (hLast : s.last = some last) : s ≠ .refused ∧ r.last (r.state s) = some last := by
  cases s with
  | between => exact ⟨by simp, h.lastBetween.trans hLast⟩
  | word letters => exact ⟨by simp, (h.lastWord letters).trans hLast⟩
  | closing text => exact ⟨by simp, (h.lastName text).trans hLast⟩
  | operator o =>
      rw [ScanState.last] at hLast
      split at hLast
      next hOperator => exact ⟨by simp, (h.lastOperator o hOperator).trans hLast⟩
      next => cases hLast
  | inside text => cases hLast
  | refused => cases hLast

theorem read_text (hLexical : r.Lexical) (hGrammar : r.Grammar) {form : SqlForm} {name : Bytes}
    (hShort : (form.text name).length ≤ r.maxLength) :
    r.read (form.text name) = some (form, withoutNul name) := by
  obtain ⟨tokens, s, last, hRun, hLast, hTokens⟩ := form.run_text name
  obtain ⟨hGoes, hEnd⟩ := last_eq hLexical hLast
  have hTokenized : r.tokenize (form.text name) =
      some (form.head ++ .name (withoutNul name) :: form.tail) := by
    rw [tokenize, run_eq hLexical hRun hGoes]
    simp only [hEnd, Option.map_some, hTokens]
  rw [read, form.cString_text]
  simp only [if_pos hShort, hTokenized, Option.bind_some]
  exact hGrammar form (withoutNul name)

theorem read_text_of_valid (hLexical : r.Lexical) (hGrammar : r.Grammar) {form : SqlForm}
    {name : Bytes} (hShort : (form.text name).length ≤ r.maxLength)
    (hValid : validateIdent name = .ok ()) : r.read (form.text name) = some (form, name) := by
  rw [read_text hLexical hGrammar hShort, withoutNul_of_valid hValid]

end SqlReader

theorem plainReader_lexical : plainReader.Lexical where
  blank := by decide
  word := by
    intro c hLetter
    have hMark : c ≠ quoteMark := by
      rintro rfl
      exact absurd hLetter (by decide)
    exact (if_neg hMark).trans (if_pos hLetter)
  more letters c hChar := if_pos hChar
  opening := by decide
  quotes := scanStep_quotes
  punctuation := by decide +kernel
  operator := by decide +kernel
  atLeast := by decide
  wordEnds := by
    intro letters c hMem
    have hOther : ∀ c ∈ delimiters, ¬ identChar c = true := by decide +kernel
    exact (if_neg (hOther c hMem)).trans (if_pos hMem)
  nameEnds := by
    intro text c hMem
    have hOther : ∀ c ∈ delimiters, c ≠ quoteMark := by decide +kernel
    exact (if_neg (hOther c hMem)).trans (if_pos hMem)
  operatorEnds := by decide +kernel
  lastBetween := rfl
  lastWord _ := rfl
  lastName _ := rfl
  lastOperator o hOperator := if_pos hOperator

theorem plainReader_grammar : plainReader.Grammar := SqlForm.ofTokens_eq

namespace SqlForm
variable {σ : Type} {r : SqlReader σ}

/-- Whatever the name is, SQLite reads the text as the one statement that it was built for, on
that name without its NULs: nothing in a name ends its quotation, and no other statement or name
has this text. A name that passes the check is read as it is. -/
theorem text_reads_as (hLexical : r.Lexical) (hGrammar : r.Grammar) (form : SqlForm)
    (name : Bytes) :
    ((form.text name).length ≤ r.maxLength →
      r.read (form.text name) = some (form, withoutNul name)) ∧
    (∀ form' name', form.text name = form'.text name' ↔
      form = form' ∧ withoutNul name = withoutNul name') ∧
    (validateIdent name = .ok () → withoutNul name = name) := by
  refine ⟨SqlReader.read_text hLexical hGrammar, ?_, withoutNul_of_valid⟩
  intro form' name'
  constructor
  · intro hSame
    obtain ⟨tokens, s, last, hRun, hLast, hTokens⟩ := run_text form name
    obtain ⟨tokens', s', last', hRun', hLast', hTokens'⟩ := run_text form' name'
    obtain ⟨rfl, rfl⟩ := Prod.mk.inj (hRun.symm.trans (hSame ▸ hRun'))
    obtain rfl := Option.some.inj (hLast.symm.trans hLast')
    have hRead := congrArg ofTokens (hTokens.symm.trans hTokens')
    rw [ofTokens_eq, ofTokens_eq, Option.some_inj, Prod.mk.injEq] at hRead
    exact hRead
  · rintro ⟨rfl, hName⟩
    rw [text, text, quoteIdent_eq, quoteIdent_eq, hName]

/-- A name that tries to end its quotation. -/
theorem text_reads_as_injection :
    plainReader.read (SqlForm.deleteWhereKey.text (ascii "t\" WHERE 1; --")) =
      some (.deleteWhereKey, ascii "t\" WHERE 1; --") :=
  (text_reads_as plainReader_lexical plainReader_grammar .deleteWhereKey
    (ascii "t\" WHERE 1; --")).1 (by decide)

end SqlForm
end CelerMem
