import LayeredParse.Proofs.Lex.Respacing
import Mathlib.Computability.Language
import Mathlib.Data.Char
import Mathlib.Order.Interval.Set.Defs
/-!
# LongestMatch — lexemes are the longest words of languages

Every kind of lexeme has a language, made of classes of characters by union, concatenation and repetition
(`LexemeKind.language`); only a comment is not, which ends with the first closing mark.  Its words are what is written
as a lexeme of the kind (`mem_language_iff`), and no word is of two kinds (`kind_unique`).  What follows a word can
make the first lexeme longer, but not shorter (`le_measure`), so the first lexeme of a text is the longest word that
the text begins with, and what is not recognized is the longest beginning of a word (`next_isFirst`,
`ofSource_longest`).
-/
namespace LayeredParse

open scoped Computability

namespace LexemeKind

/-- The words of one character of a set. -/
def oneOf (set : Set Char) : Language Char :=
  {w | ∃ c ∈ set, w = [c]}

def ofList (words : List (List Char)) : Language Char :=
  {w | w ∈ words}

def blanks : Set Char := {' ', '\t', '\r', '\n', '\x0c'}

def letters : Set Char := Set.Icc 'A' 'Z' ∪ Set.Icc 'a' 'z' ∪ {'_'}

def digits : Set Char := Set.Icc '0' '9'

/-- Between two marks, anything but the mark, a backslash and line breaks, or a backslash and anything but a line
feed. -/
def quotes (mark : Char) : Language Char :=
  {[mark]} * (oneOf {mark, '\\', '\r', '\n'}ᶜ + {['\\']} * oneOf {'\n'}ᶜ)∗ * {[mark]}

def operators : List String :=
  ["==", "!=", "<=", ">=", "&&", "||", "->", "::", "++", "--", "<<", ">>"]

/-- **The words of a kind.** -/
def language : LexemeKind → Language Char
  | whitespace => oneOf blanks * (oneOf blanks)∗
  | lineComment => {['/', '/']} * (oneOf {'\r', '\n'}ᶜ)∗
  | blockComment => {w | ∃ body, w = ['/', '*'] ++ body ++ ['*', '/'] ∧ ¬['*', '/'] <:+: body}
  | identifier => oneOf letters * (oneOf (letters ∪ digits))∗
  | number => oneOf digits * (oneOf digits)∗ * (1 + {['.']} * (oneOf digits * (oneOf digits)∗))
  | string => quotes '"' + quotes '\''
  | punctuator => ofList (operators.map String.toList) + oneOf {c | c ∈ "-+*/%=<>!&|^~?:;,.()\x7b\x7d[]#@$".toList}

end LexemeKind

namespace Lexeme

open LexemeKind (oneOf blanks letters digits quotes)

variable {c mark : Char} {s w rest taken follow : List Char} {kind : LexemeKind}

/-! ## The words of the languages -/

theorem mem_oneOf_star {set : Set Char} : w ∈ (oneOf set)∗ ↔ ∀ c ∈ w, c ∈ set := by
  rw [Language.mem_kstar]
  constructor
  · rintro ⟨words, rfl, hwords⟩ c hc
    obtain ⟨word, hword, hc⟩ := List.mem_flatten.1 hc
    obtain ⟨d, hd, rfl⟩ := hwords word hword
    rwa [List.mem_singleton.1 hc]
  · intro h
    refine ⟨w.map ([·]), by rw [← List.flatMap_def, List.flatMap_singleton'], ?_⟩
    rintro _ hword
    obtain ⟨c, hc, rfl⟩ := List.mem_map.1 hword
    exact ⟨c, h c hc, rfl⟩

theorem mem_oneOf_mul {set : Set Char} {L : Language Char} : w ∈ oneOf set * L ↔ ∃ c ∈ set, ∃ v ∈ L, w = c :: v := by
  rw [Language.mem_mul]
  constructor
  · rintro ⟨_, ⟨c, hc, rfl⟩, v, hv, rfl⟩
    exact ⟨c, hc, v, hv, rfl⟩
  · rintro ⟨c, hc, v, hv, rfl⟩
    exact ⟨[c], ⟨c, hc, rfl⟩, v, hv, rfl⟩

theorem mem_singleton_mul {u : List Char} {L : Language Char} : w ∈ {u} * L ↔ ∃ v ∈ L, w = u ++ v := by
  rw [Language.mem_mul]
  constructor
  · rintro ⟨_, rfl, v, hv, rfl⟩
    exact ⟨v, hv, rfl⟩
  · rintro ⟨v, hv, rfl⟩
    exact ⟨u, rfl, v, hv, rfl⟩

theorem isBlank_iff : isBlank c = true ↔ c ∈ blanks := by
  simp [isBlank, blanks, or_assoc]

theorem isInLine_iff : isInLine c = true ↔ c ∈ ({'\r', '\n'} : Set Char)ᶜ := by
  simp [isInLine]

theorem isDigit_iff : c.isDigit = true ↔ c ∈ digits := by
  simp [Char.isDigit, digits, Char.le_def]

theorem isWordStart_iff : isWordStart c = true ↔ c ∈ letters := by
  unfold isWordStart Char.isAlpha Char.isUpper Char.isLower
  simp [letters, Char.le_def, or_comm]

theorem isWordPart_iff : isWordPart c = true ↔ c ∈ letters ∪ digits := by
  rw [Set.mem_union, ← isWordStart_iff, ← isDigit_iff, isWordPart, isWordStart, Char.isAlphanum]
  simp only [Bool.or_eq_true]
  exact or_right_comm

theorem mem_run {p : Char → Bool} {set : Set Char} (h : ∀ c, p c = true ↔ c ∈ set) :
    w ∈ oneOf set * (oneOf set)∗ ↔ w ≠ [] ∧ ∀ c ∈ w, p c = true := by
  simp only [mem_oneOf_mul, mem_oneOf_star, ← h]
  cases w with
  | nil => simp
  | cons c w => simp

/-- One character of a quoted string or one escape, and more of the string. -/
theorem piece_mem_quotes {u v : List Char} {L M : Language Char} (hu : u ∈ L) (hv : v ∈ L∗ * M) : u ++ v ∈ L∗ * M := by
  have hle : L * (L∗ * M) ≤ L∗ * M := by
    rw [← mul_assoc]
    exact mul_le_mul_left mul_kstar_le_kstar M
  exact hle (Language.append_mem_mul hu hv)

theorem quoted_of_pieces {pieces : List (List Char)}
    (h : ∀ u ∈ pieces, u ∈ oneOf {mark, '\\', '\r', '\n'}ᶜ + {['\\']} * oneOf {'\n'}ᶜ) :
    Quoted mark (pieces.flatten ++ [mark]) := by
  induction pieces with
  | nil => exact .close
  | cons piece pieces ih =>
    obtain ⟨hpiece, hpieces⟩ := List.forall_mem_cons.1 h
    rw [List.flatten_cons, List.append_assoc]
    rcases hpiece with ⟨c, hc, rfl⟩ | hescape
    · simp only [Set.mem_compl_iff, Set.mem_insert_iff, Set.mem_singleton_iff, not_or] at hc
      obtain ⟨hmark, hslash, hbreaks⟩ := hc
      exact .plain hslash hmark (isInLine_iff.2 (by simpa using hbreaks)) (ih hpieces)
    · obtain ⟨_, ⟨c, hc, rfl⟩, rfl⟩ := mem_singleton_mul.1 hescape
      exact .escape hc (ih hpieces)

/-- What is between the marks, and the second mark. -/
theorem mem_quotes : w ∈ quotes mark ↔ ∃ taken, w = mark :: taken ∧ Quoted mark taken := by
  rw [quotes, mul_assoc, mem_singleton_mul]
  constructor
  · rintro ⟨v, hv, rfl⟩
    obtain ⟨_, ⟨pieces, rfl, hpieces⟩, _, rfl, rfl⟩ := Language.mem_mul.1 hv
    exact ⟨_, rfl, quoted_of_pieces hpieces⟩
  · rintro ⟨taken, rfl, h⟩
    refine ⟨taken, ?_, rfl⟩
    induction h with
    | close => exact Language.append_mem_mul (Language.nil_mem_kstar _) rfl
    | @escape c taken hc _ ih => exact piece_mem_quotes (.inr (mem_singleton_mul.2 ⟨[c], ⟨c, hc, rfl⟩, rfl⟩)) ih
    | @plain c taken hslash hmark hline _ ih =>
      have hbreaks := isInLine_iff.1 hline
      simp only [Set.mem_compl_iff, Set.mem_insert_iff, Set.mem_singleton_iff, not_or] at hbreaks
      exact piece_mem_quotes (.inl ⟨c, by simp [hslash, hmark, hbreaks], rfl⟩) ih

theorem isOperatorPair_iff {d : Char} :
    isOperatorPair c d = true ↔ [c, d] ∈ LexemeKind.operators.map String.toList := by
  simp [isOperatorPair, LexemeKind.operators]

theorem mem_operators : w ∈ LexemeKind.operators.map String.toList ↔ ∃ c d, isOperatorPair c d = true ∧ w = [c, d] := by
  constructor
  · intro h
    have hlength : ∀ v ∈ LexemeKind.operators.map String.toList, v.length = 2 := by decide
    obtain ⟨c, d, rfl⟩ := List.length_eq_two.1 (hlength w h)
    exact ⟨c, d, isOperatorPair_iff.2 h, rfl⟩
  · rintro ⟨c, d, h, rfl⟩
    exact isOperatorPair_iff.1 h

theorem mem_number : w ∈ LexemeKind.number.language ↔ Spelled .number w := by
  have mem_digits : ∀ {v}, v ∈ oneOf digits * (oneOf digits)∗ ↔ v ≠ [] ∧ ∀ c ∈ v, c.isDigit = true :=
    mem_run fun _ => isDigit_iff
  rw [LexemeKind.language, Language.mem_mul]
  constructor
  · rintro ⟨whole, hwhole, fraction, hfraction, rfl⟩
    obtain ⟨hne, hdigits⟩ := mem_digits.1 hwhole
    obtain ⟨c, tail, rfl⟩ := List.exists_cons_of_ne_nil hne
    obtain ⟨hc, htail⟩ := List.forall_mem_cons.1 hdigits
    rcases hfraction with rfl | hfraction
    · rw [List.append_nil]
      exact .integer hc htail
    · obtain ⟨v, hv, rfl⟩ := mem_singleton_mul.1 hfraction
      obtain ⟨hne, hv⟩ := mem_digits.1 hv
      exact .decimal hc htail hne hv
  · intro h
    cases h with
    | @integer c tail hc h =>
      have hwhole := mem_digits.2 ⟨List.cons_ne_nil c tail, List.forall_mem_cons.2 ⟨hc, h⟩⟩
      exact ⟨_, hwhole, [], .inl rfl, List.append_nil _⟩
    | @decimal c tail fraction hc h hne hf =>
      have hwhole := mem_digits.2 ⟨List.cons_ne_nil c tail, List.forall_mem_cons.2 ⟨hc, h⟩⟩
      exact ⟨_, hwhole, _, .inr (mem_singleton_mul.2 ⟨fraction, mem_digits.2 ⟨hne, hf⟩, rfl⟩), rfl⟩

/-- **The words of a kind are what is written as a lexeme of the kind.** -/
theorem mem_language_iff : w ∈ kind.language ↔ Trivial kind w ∨ Spelled kind w := by
  cases kind with
  | whitespace =>
    rw [LexemeKind.language, mem_run fun _ => isBlank_iff]
    constructor
    · exact fun ⟨hne, h⟩ => .inl (.whitespace hne h)
    · rintro (h | h) <;> cases h
      exact ⟨‹_›, ‹_›⟩
  | lineComment =>
    simp only [LexemeKind.language, mem_singleton_mul, mem_oneOf_star, ← isInLine_iff]
    constructor
    · rintro ⟨line, h, rfl⟩
      exact .inl (.lineComment h)
    · rintro (h | h) <;> cases h
      exact ⟨_, ‹_›, rfl⟩
  | blockComment =>
    constructor
    · rintro ⟨body, rfl, h⟩
      rw [List.append_assoc]
      exact .inl (.blockComment h)
    · rintro (h | h) <;> cases h
      exact ⟨_, rfl, ‹_›⟩
  | identifier =>
    simp only [LexemeKind.language, mem_oneOf_mul, mem_oneOf_star, ← isWordStart_iff, ← isWordPart_iff]
    constructor
    · rintro ⟨c, hc, part, h, rfl⟩
      exact .inr (.identifier hc h)
    · rintro (h | h) <;> cases h
      exact ⟨_, ‹_›, _, ‹_›, rfl⟩
  | number =>
    refine mem_number.trans ⟨.inr, ?_⟩
    rintro (h | h)
    · cases h
    · exact h
  | string =>
    rw [LexemeKind.language, Language.mem_add, mem_quotes, mem_quotes]
    constructor
    · rintro (⟨taken, rfl, h⟩ | ⟨taken, rfl, h⟩)
      · exact .inr (.string (.inl rfl) h)
      · exact .inr (.string (.inr rfl) h)
    · rintro (h | h)
      · cases h
      · cases h with
        | @string mark taken hmark h =>
          rcases hmark with rfl | rfl
          · exact .inl ⟨taken, rfl, h⟩
          · exact .inr ⟨taken, rfl, h⟩
  | punctuator =>
    have hsingle : w ∈ oneOf {c | c ∈ "-+*/%=<>!&|^~?:;,.()\x7b\x7d[]#@$".toList} ↔
        ∃ c, isPunctuation c = true ∧ w = [c] := by
      simp only [isPunctuation, List.contains_iff_mem]
      exact Iff.rfl
    rw [LexemeKind.language, Language.mem_add, hsingle]
    refine (or_congr_left mem_operators).trans ?_
    constructor
    · rintro (⟨c, d, h, rfl⟩ | ⟨c, h, rfl⟩)
      · exact .inr (.pair h)
      · exact .inr (.single h)
    · rintro (h | h) <;> cases h
      · exact .inl ⟨_, _, ‹_›, rfl⟩
      · exact .inr ⟨_, ‹_›, rfl⟩

/-! ## What follows a word -/

/-- A comment is opened at the beginning, and not closed. -/
def OpensComment (s : List Char) : Prop :=
  ∃ body, s = ['/', '*'] ++ body ∧ ¬['*', '/'] <:+: body

theorem commentEnd_cons (h : ¬(c = '*' ∧ rest.head? = some '/')) :
    commentEnd (c :: rest) = (commentEnd rest).map (· + 1) := by
  rw [commentEnd]
  rintro line rfl rfl
  exact h ⟨rfl, rfl⟩

theorem commentEnd_append {body : List Char} (h : ¬['*', '/'] <:+: body) (follow : List Char) :
    commentEnd (body ++ '*' :: '/' :: follow) = some (body.length + 2) := by
  induction body with
  | nil => rfl
  | cons c body ih =>
    rw [closing_infix_cons, not_or] at h
    obtain ⟨hhere, hbody⟩ := h
    have hopen : ¬(c = '*' ∧ (body ++ '*' :: '/' :: follow).head? = some '/') := by
      cases body with
      | nil => simp
      | cons d body => exact hhere
    rw [List.cons_append, commentEnd_cons hopen, ih hbody]
    rfl

theorem measure_closed {body : List Char} {n : Nat} (h : commentEnd body = some n) :
    measure '/' ('*' :: body) = (some .blockComment, 1 + n) := by
  unfold measure
  rw [if_neg (by decide), if_neg (by decide), if_neg (by decide), if_neg (by decide)]
  simp only [h]

theorem measure_blank (h : isBlank c = true) (rest : List Char) :
    measure c rest = (some .whitespace, (rest.takeWhile isBlank).length) := by
  unfold measure
  rw [if_pos h]

/-- Trivia stays what it is, whatever follows, and may become longer. -/
theorem Trivial.le_measure (h : Trivial kind (c :: taken)) (follow : List Char) :
    (measure c (taken ++ follow)).1 = some kind ∧ taken.length ≤ (measure c (taken ++ follow)).2 := by
  cases h with
  | whitespace hne h =>
    obtain ⟨hc, h⟩ := List.forall_mem_cons.1 h
    rw [measure_blank hc]
    exact ⟨rfl, List.length_le_takeWhile_append h follow⟩
  | @lineComment line h =>
    have hmeasure : measure '/' ('/' :: (line ++ follow)) =
        (some .lineComment, 1 + ((line ++ follow).takeWhile isInLine).length) := rfl
    rw [List.cons_append, hmeasure, List.length_cons, Nat.add_comm line.length]
    exact ⟨rfl, Nat.add_le_add_left (List.length_le_takeWhile_append h follow) 1⟩
  | @blockComment body h =>
    have hmeasure := measure_closed (commentEnd_append h follow)
    rw [List.cons_append, List.append_assoc, List.cons_append, List.singleton_append, hmeasure, List.length_cons,
      List.length_append]
    exact ⟨rfl, Nat.le_of_eq (Nat.add_comm _ 1)⟩

/-- Punctuation is recognized, unless it opens a comment that is not closed. -/
theorem exists_kind_of_isPunctuation (h : isPunctuation c = true) (hopen : ¬OpensComment (c :: rest)) :
    ∃ kind, (measure c rest).1 = some kind := by
  refine Option.ne_none_iff_exists'.1 fun hnone => ?_
  have hcut : Unrecognized (next c rest).chars (after c rest) := next_unrecognized hnone
  have hchars := chars_append_after c rest
  obtain ⟨-, -, -, hquote⟩ := not_other_of_isPunctuation h
  generalize (next c rest).chars = word at hcut hchars
  generalize after c rest = follow at hcut hchars
  cases hcut with
  | character hstrange =>
    obtain ⟨rfl, -⟩ := List.cons.inj hchars
    exact hstrange.not_punctuation h
  | string hmark _ =>
    obtain ⟨rfl, -⟩ := List.cons.inj hchars
    exact hquote hmark
  | @comment body hbody => exact hopen ⟨body, by rw [← hchars, List.append_nil]; rfl, hbody⟩

/-- A lexeme of a kind of its own may become longer, or become a comment. -/
theorem Spelled.le_measure (h : Spelled kind (c :: taken)) (follow : List Char)
    (hopen : ¬OpensComment (c :: (taken ++ follow))) :
    (∃ kind', (measure c (taken ++ follow)).1 = some kind') ∧ taken.length ≤ (measure c (taken ++ follow)).2 := by
  cases h with
  | identifier hc h =>
    rw [measure_word hc]
    exact ⟨⟨_, rfl⟩, List.length_le_takeWhile_append h follow⟩
  | integer hc h =>
    rw [measure_digit hc]
    exact ⟨⟨_, rfl⟩, Nat.le_add_right_of_le (List.length_le_takeWhile_append h follow)⟩
  | @decimal _ digits fraction hc h hne hfraction =>
    have hdigits : (digits ++ '.' :: (fraction ++ follow)).takeWhile Char.isDigit = digits := by
      rw [List.takeWhile_append_of_pos h, List.takeWhile_cons_of_neg (by decide), List.append_nil]
    have hlength : fraction.length + 1 ≤ fractionLength ('.' :: (fraction ++ follow)) := by
      have hle := List.length_le_takeWhile_append hfraction follow
      have hpos := List.length_pos_of_ne_nil hne
      rw [fractionLength]
      split <;> omega
    rw [List.append_assoc, List.cons_append, measure_digit hc, hdigits, List.drop_left, List.length_append,
      List.length_cons]
    exact ⟨⟨_, rfl⟩, Nat.add_le_add_left hlength _⟩
  | string hmark h =>
    have hescape : c ≠ '\\' := by rcases hmark with rfl | rfl <;> decide
    rw [measure_quote hmark, h.stringEnd_eq hescape]
    exact ⟨⟨_, rfl⟩, Nat.le_refl _⟩
  | pair h =>
    rw [List.singleton_append, measure_pair h]
    exact ⟨⟨_, rfl⟩, Nat.le_refl _⟩
  | single h =>
    exact ⟨exists_kind_of_isPunctuation h hopen, Nat.zero_le _⟩

theorem ne_nil_of_mem (h : w ∈ kind.language) : w ≠ [] := by
  rcases mem_language_iff.1 h with h | h
  · cases h with
    | whitespace hne => exact hne
    | lineComment | blockComment => exact List.cons_ne_nil _ _
  · cases h <;> exact List.cons_ne_nil _ _

/-- **What follows a word makes the first lexeme no shorter**, and it is recognized unless it opens a comment. -/
theorem le_measure (h : c :: taken ∈ kind.language) (follow : List Char)
    (hopen : ¬OpensComment (c :: (taken ++ follow))) :
    (∃ kind', (measure c (taken ++ follow)).1 = some kind') ∧ taken.length ≤ (measure c (taken ++ follow)).2 := by
  rcases mem_language_iff.1 h with h | h
  · obtain ⟨hkind, hle⟩ := h.le_measure follow
    exact ⟨⟨_, hkind⟩, hle⟩
  · exact h.le_measure follow hopen

/-- **What is recognized is a word of its kind.** -/
theorem next_mem (h : (next c rest).kind = some kind) : (next c rest).chars ∈ kind.language := by
  refine mem_language_iff.2 ?_
  cases htrivia : kind.isTrivia with
  | true => exact .inl (measure_trivial c rest kind h htrivia)
  | false => exact .inr (measure_spelled c rest kind h htrivia)

/-- A word by itself is one lexeme of its kind. -/
theorem next_of_mem (h : c :: taken ∈ kind.language) : next c taken = ⟨some kind, c :: taken⟩ := by
  rcases mem_language_iff.1 h with h | h
  · obtain ⟨hkind, hle⟩ := h.le_measure []
    rw [List.append_nil] at hkind hle
    show Lexeme.mk (measure c taken).1 (c :: taken.take (measure c taken).2) = _
    rw [hkind, List.take_of_length_le hle]
  · have hcut := h.next_eq breaks_nil
    rwa [List.append_nil] at hcut

/-- **No word is of two kinds.** -/
theorem kind_unique {kind' : LexemeKind} (h : w ∈ kind.language) (h' : w ∈ kind'.language) : kind' = kind := by
  obtain ⟨c, taken, rfl⟩ := List.exists_cons_of_ne_nil (ne_nil_of_mem h)
  have hboth := (next_of_mem h').symm.trans (next_of_mem h)
  exact Option.some.inj (congrArg Lexeme.kind hboth)

/-! ## What no word begins -/

/-- Whether the characters are the beginning of a word. -/
def BeginsWord (w : List Char) : Prop :=
  ∃ kind : LexemeKind, ∃ word ∈ kind.language, w <+: word

/-- A string that breaks off could have gone on. -/
theorem Unclosed.exists_quoted (hmark : mark ≠ '\n') (h : Unclosed mark taken follow) :
    ∃ more, Quoted mark (taken ++ more) := by
  induction h with
  | stops => exact ⟨[mark], .close⟩
  | halfEscape => exact ⟨[mark, mark], .escape hmark .close⟩
  | escape hc _ ih =>
    obtain ⟨more, hmore⟩ := ih
    exact ⟨more, .escape hc hmore⟩
  | plain hc hne hline _ ih =>
    obtain ⟨more, hmore⟩ := ih
    exact ⟨more, .plain hc hne hline hmore⟩

theorem Quoted.of_escape (hmark : mark ≠ '\\') (h : Quoted mark ('\\' :: c :: taken)) :
    c ≠ '\n' ∧ Quoted mark taken := by
  cases h with
  | escape hc h => exact ⟨hc, h⟩
  | plain hc => exact absurd rfl hc

theorem Quoted.of_plain (hc : c ≠ '\\') (hne : c ≠ mark) (h : Quoted mark (c :: taken)) :
    isInLine c = true ∧ Quoted mark taken := by
  cases h with
  | close => exact absurd rfl hne
  | escape => exact absurd rfl hc
  | plain _ _ hline h => exact ⟨hline, h⟩

/-- What follows a string that breaks off cannot be part of it. -/
theorem Unclosed.not_quoted (hmark : mark = '"' ∨ mark = '\'') (h : Unclosed mark taken follow) :
    ∀ d, follow.head? = some d → ∀ more, ¬Quoted mark (taken ++ d :: more) := by
  have hslash : mark ≠ '\\' := by rcases hmark with rfl | rfl <;> decide
  induction h with
  | stops h =>
    intro d hd more hquoted
    have hline := h d hd
    have hc : d ≠ '\\' := by
      rintro rfl
      cases hline
    have hne : d ≠ mark := by
      rcases hmark with rfl | rfl <;> rintro rfl <;> cases hline
    rw [(hquoted.of_plain hc hne).1] at hline
    cases hline
  | halfEscape h =>
    intro d hd more hquoted
    exact (hquoted.of_escape hslash).1 (h d hd)
  | escape hc _ ih =>
    intro d hd more hquoted
    exact ih d hd more (hquoted.of_escape hslash).2
  | plain hc hne hline _ ih =>
    intro d hd more hquoted
    exact ih d hd more (hquoted.of_plain hc hne).2

/-- A word that begins with a mark is a string in such marks. -/
theorem quoted_of_mem (hmark : mark = '"' ∨ mark = '\'') (h : mark :: taken ∈ kind.language) : Quoted mark taken := by
  have hcut := next_of_mem h
  rw [next, measure_quote hmark] at hcut
  obtain ⟨hkind, hchars⟩ := Lexeme.mk.inj hcut
  cases hclosed : (stringEnd mark taken).2 with
  | true =>
    have hquoted := stringEnd_quoted mark taken (stringEnd mark taken).1 (Prod.ext rfl hclosed)
    rwa [(List.cons.inj hchars).2] at hquoted
  | false =>
    rw [hclosed] at hkind
    cases hkind

/-! ## The first lexeme -/

/-- **The longest beginning of a text that satisfies a condition.** -/
structure LongestStart (P : List Char → Prop) (s w : List Char) : Prop where
  starts : w <+: s
  holds : P w
  longest : ∀ v, v <+: s → P v → v.length ≤ w.length

/-- **What the first lexeme of a text has to be**, by the languages of the kinds. -/
structure IsFirst (s : List Char) (l : Lexeme) : Prop where
  /-- A comment that is not closed is an error, all of it. -/
  unclosed : OpensComment s → l = ⟨none, s⟩
  /-- Otherwise it is the longest word, if the text begins with one, of the only kind that the word is of. -/
  word : ¬OpensComment s → (∃ w, w ≠ [] ∧ w <+: s ∧ ∃ kind : LexemeKind, w ∈ kind.language) →
    LongestStart (fun w => ∃ kind : LexemeKind, w ∈ kind.language) s l.chars ∧
      ∀ kind : LexemeKind, l.chars ∈ kind.language ↔ l.kind = some kind
  /-- Otherwise it is an error: one character, or more if they begin a word, as many as do. -/
  error : ¬OpensComment s → (∀ w, w ≠ [] → w <+: s → ∀ kind : LexemeKind, w ∉ kind.language) →
    l.kind = none ∧ LongestStart (fun w => w.length = 1 ∨ BeginsWord w) s l.chars

theorem next_starts (c : Char) (rest : List Char) : (next c rest).chars <+: c :: rest :=
  ⟨_, chars_append_after c rest⟩

/-- A word that a text begins with is cut off at least. -/
theorem word_le_next (hw : w ∈ kind.language) (hs : w <+: c :: rest) (hopen : ¬OpensComment (c :: rest)) :
    (∃ kind', (next c rest).kind = some kind') ∧ w.length ≤ (next c rest).chars.length := by
  obtain ⟨follow, happend⟩ := hs
  obtain ⟨d, taken, rfl⟩ := List.exists_cons_of_ne_nil (ne_nil_of_mem hw)
  rw [List.cons_append] at happend
  obtain ⟨rfl, rfl⟩ := List.cons.inj happend
  obtain ⟨hkind, hle⟩ := le_measure hw follow hopen
  refine ⟨hkind, ?_⟩
  rw [next_chars, List.length_cons, List.length_cons, List.length_take, List.length_append]
  omega

theorem Strange.longestStart (h : Strange c) : LongestStart (fun w => w.length = 1 ∨ BeginsWord w) (c :: rest) [c] := by
  refine ⟨⟨rest, rfl⟩, .inl rfl, fun v hv hP => ?_⟩
  rcases hP with hone | ⟨kind, word, hword, hstarts⟩
  · exact Nat.le_of_eq hone
  · cases v with
    | nil => exact Nat.zero_le _
    | cons d v =>
      obtain rfl : d = c := (List.cons_prefix_cons.1 hv).1
      obtain ⟨more, rfl⟩ := hstarts
      have hcut := congrArg Lexeme.kind (next_of_mem hword)
      rw [next, h.measure_eq] at hcut
      cases hcut

theorem Unclosed.longestStart (hmark : mark = '"' ∨ mark = '\'') (h : Unclosed mark taken follow) :
    LongestStart (fun w => w.length = 1 ∨ BeginsWord w) (mark :: (taken ++ follow)) (mark :: taken) := by
  have hnewline : mark ≠ '\n' := by rcases hmark with rfl | rfl <;> decide
  obtain ⟨more, hmore⟩ := h.exists_quoted hnewline
  have hword : mark :: (taken ++ more) ∈ LexemeKind.string.language := mem_language_iff.2 (.inr (.string hmark hmore))
  refine ⟨⟨follow, rfl⟩, .inr ⟨_, _, hword, more, rfl⟩, fun v hv hP => ?_⟩
  rcases hP with hone | ⟨kind, word, hword, later, rfl⟩
  · rw [hone]
    exact Nat.succ_le_succ (Nat.zero_le _)
  · refine Nat.le_of_not_lt fun hlt => ?_
    -- a longer beginning would have what follows in it
    obtain ⟨beyond, rfl⟩ := List.prefix_of_prefix_length_le ⟨follow, rfl⟩ hv (Nat.le_of_lt hlt)
    cases beyond with
    | nil => simp at hlt
    | cons d beyond =>
      rw [← List.cons_append, List.prefix_append_right_inj] at hv
      have hhead : follow.head? = some d := by
        obtain ⟨_, rfl⟩ := hv
        rfl
      rw [List.append_assoc, List.cons_append, List.cons_append] at hword
      exact h.not_quoted hmark d hhead _ (quoted_of_mem hmark hword)

theorem Unrecognized.longestStart (h : Unrecognized w follow) (hopen : ¬OpensComment (w ++ follow)) :
    LongestStart (fun w => w.length = 1 ∨ BeginsWord w) (w ++ follow) w := by
  cases h with
  | character h => exact h.longestStart
  | string hmark h => exact h.longestStart hmark
  | comment h => exact absurd ⟨_, List.append_nil _, h⟩ hopen

/-- **The first lexeme of a text is the longest match.** -/
theorem next_isFirst (c : Char) (rest : List Char) : IsFirst (c :: rest) (next c rest) where
  unclosed := by
    rintro ⟨body, hs, hbody⟩
    have hcut : Unrecognized ('/' :: '*' :: body) [] := .comment hbody
    rw [hcut.next_eq (hs.trans (List.append_nil _).symm), hs]
    rfl
  word := by
    rintro hopen ⟨w, -, hs, kind, hw⟩
    obtain ⟨⟨kind', hkind⟩, -⟩ := word_le_next hw hs hopen
    have hmem := next_mem hkind
    refine ⟨⟨next_starts c rest, ⟨kind', hmem⟩, ?_⟩, fun kind => ⟨fun h => ?_, next_mem⟩⟩
    · rintro v hv ⟨kind, hv'⟩
      exact (word_le_next hv' hv hopen).2
    · rw [kind_unique hmem h, hkind]
  error := by
    intro hopen hnone
    have hkind : (next c rest).kind = none := by
      refine Option.eq_none_iff_forall_ne_some.2 fun kind hkind => ?_
      exact hnone _ (List.cons_ne_nil _ _) (next_starts c rest) kind (next_mem hkind)
    have hlongest := (next_unrecognized hkind).longestStart (by rwa [chars_append_after])
    rw [chars_append_after] at hlongest
    exact ⟨hkind, hlongest⟩

theorem ofChars_isFirst (s : List Char) : ∀ {before later : List Lexeme} {l : Lexeme},
    ofChars s = before ++ l :: later → IsFirst ((l :: later).flatMap chars) l := by
  induction s using ofChars.induct with
  | case1 =>
    intro before later l h
    rw [ofChars_nil] at h
    cases before <;> cases h
  | case2 c rest ih =>
    intro before later l h
    have hall := flatMap_chars (c :: rest)
    rw [h] at hall
    rw [ofChars_cons] at h
    cases before with
    | nil =>
      obtain ⟨rfl, -⟩ := List.cons.inj h
      rw [List.nil_append] at hall
      rw [hall]
      exact next_isFirst c rest
    | cons first before => exact ih (List.cons.inj h).2

/-- **Each lexeme is the longest match.**  The lexemes of a source put together give it back, and each of them is what
the languages of the kinds say that the first lexeme of what is left of the source has to be: all of it, as an error,
if it opens a comment that it does not close; otherwise the longest word that it begins with, of a kind and of no
other; otherwise, if it begins with no word, an error that goes as far as it is the beginning of a word, and has a
character at least. -/
theorem ofSource_longest (source : String) :
    (ofSource source).flatMap chars = source.toList ∧
    ∀ before l later, ofSource source = before ++ l :: later → IsFirst ((l :: later).flatMap chars) l :=
  ⟨flatMap_chars source.toList, fun _ _ _ h => ofChars_isFirst source.toList h⟩

/-- A number goes no further than its digits if no digit follows the point, a string that breaks off ends before the
line break, and a comment that is not closed is all that is left. -/
theorem ofSource_longest_broken : ∃ source number point string break_ comment, source = "1.'a\n/*/" ∧
    ofSource source = [number, point, string, break_, comment] ∧ (ofSource source).flatMap chars = source.toList ∧
    number = ⟨some .number, ['1']⟩ ∧ (∀ kind : LexemeKind, number.chars ∈ kind.language ↔ number.kind = some kind) ∧
    (∀ v, v <+: source.toList → (∃ kind : LexemeKind, v ∈ kind.language) → v.length ≤ 1) ∧
    string = ⟨none, ['\'', 'a']⟩ ∧ BeginsWord string.chars ∧ ¬BeginsWord ['\'', 'a', '\n'] ∧
    OpensComment "/*/".toList ∧ comment = ⟨none, "/*/".toList⟩ := by
  let source := "1.'a\n/*/"
  let string : Lexeme := ⟨none, ['\'', 'a']⟩
  have hlexemes : ofSource source = [⟨some .number, ['1']⟩, ⟨some .punctuator, ['.']⟩, string,
      ⟨some .whitespace, ['\n']⟩, ⟨none, "/*/".toList⟩] := by
    decide +kernel
  obtain ⟨hall, first⟩ := ofSource_longest source
  have hnumber : IsFirst source.toList ⟨some .number, ['1']⟩ := by
    rw [← hall, hlexemes]
    exact first [] _ _ hlexemes
  have hstring : IsFirst "'a\n/*/".toList string := by
    have h := first [_, _] string _ hlexemes
    rwa [show List.flatMap chars [string, ⟨some .whitespace, ['\n']⟩, ⟨none, "/*/".toList⟩] = "'a\n/*/".toList
      by decide +kernel] at h
  have hcomment : IsFirst "/*/".toList ⟨none, "/*/".toList⟩ := first [_, _, _, _] _ [] hlexemes
  have hopen : OpensComment "/*/".toList := ⟨['/'], by decide, by decide⟩
  have closed : ∀ {s : List Char}, s.head? ≠ some '/' → ¬OpensComment s := by
    rintro _ h ⟨body, rfl, -⟩
    exact h rfl
  have digit : ['1'] ∈ LexemeKind.number.language := mem_language_iff.2 (.inr (.integer rfl (fun _ h => nomatch h)))
  obtain ⟨hlongest, hkind⟩ := hnumber.word (closed (by decide)) ⟨['1'], by decide, by decide, .number, digit⟩
  have hmark : ¬OpensComment "'a\n/*/".toList := closed (by decide)
  have hnone : ∀ w, w ≠ [] → w <+: "'a\n/*/".toList → ∀ kind : LexemeKind, w ∉ kind.language := by
    intro w _ hs kind hw
    have hcut : (next '\'' ['a', '\n', '/', '*', '/']).kind = none := by decide +kernel
    obtain ⟨⟨kind', hkind'⟩, -⟩ := word_le_next hw hs hmark
    exact Option.some_ne_none kind' (hkind'.symm.trans hcut)
  obtain ⟨-, hstart⟩ := hstring.error hmark hnone
  refine ⟨source, _, _, string, _, _, rfl, hlexemes, hall, rfl, hkind, hlongest.longest, rfl,
    hstart.holds.resolve_left (by decide), fun h => ?_, hopen, hcomment.unclosed hopen⟩
  exact absurd (hstart.longest ['\'', 'a', '\n'] (by decide) (.inr h)) (by decide)

end Lexeme
end LayeredParse
