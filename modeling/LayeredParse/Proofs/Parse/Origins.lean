import LayeredParse.Proofs.Lex.Positions
import LayeredParse.Proofs.Parse.Nested
import LayeredParse.Proofs.Text.Owners
/-!
# Origins — where the tokens of a text in layers come from

A token of the characters of a text is a run of these characters (`exists_slice`).  Wherever it comes from, every cursor
on the text reads it there, and each of its characters has an owner (`Text.Reads`).  The error of a failed parse is at
such a token, unless it is after the last one or fatal, so that its offset leads to the layer of the token
(`Text.Built.reads_tokens`).
-/
namespace LayeredParse

/-- **A token is a run of the characters of the source**, with something in front of it and something after it. -/
theorem exists_slice {source : String} {token : Token} (h : token ∈ lex source) :
    ∃ behind after, source.toList = behind ++ (token.value.toList ++ after) ∧ token.value ≠ "" ∧
      token.range = ⟨behind.length, behind.length + token.value.length⟩ := by
  obtain ⟨behind, c, rest, hsource, hlexeme⟩ := exists_lexemeAfter h
  have hvalue := hlexeme.toList_value
  refine ⟨behind, Lexeme.after c rest, ?_, ?_, ?_⟩
  · rw [hvalue, Lexeme.chars_append_after]
    exact hsource
  · rintro hempty
    rw [hempty, Lexeme.next_chars] at hvalue
    cases hvalue
  · rw [hlexeme.range_eq, ← hvalue, String.length_toList]

theorem Cursor.looks_text : ∀ (lookups : List Lookup) (c : Cursor), (c.looks lookups).2.text = c.text
  | [], _ => rfl
  | .charAt _ :: ls, c => looks_text ls (c.charAt _).2
  | .location _ :: ls, c => looks_text ls (c.location _).2

namespace Text

/-- **Whether a text has some characters from an index on**: every cursor reads them there, whatever it has looked up
before, the text has a location there, and each of them has an owner that accounts for it. -/
structure Reads (t : Text) (start : Nat) (value : String) : Prop where
  read_eq : ∀ lookups, (t.cursor.looks lookups).2.read start value.length = value.toList
  located : ∃ l, t.location start = some l
  owned : ∀ i c, value.toList[i]? = some c → Owned (t.owner? (start + i)) (t.location (start + i)) c

variable {t : Text}

theorem looks_read (hr : t.InRange) (lookups : List Lookup) {index count : Nat} (hin : index + count ≤ t.length) :
    (t.cursor.looks lookups).2.read index count = (t.content.drop index).take count := by
  have hfits : t.Fits (t.cursor.looks lookups).2.state :=
    (looks_remembers hr lookups none t.opened (remembers_opened t)).2.1
  have htext : (t.cursor.looks lookups).2.text = t := Cursor.looks_text lookups t.cursor
  generalize (t.cursor.looks lookups).2 = c at hfits htext ⊢
  obtain ⟨u, state⟩ := c
  obtain rfl : u = t := htext
  exact read_eq hr count index state hfits hin

theorem InRange.reads (hr : t.InRange) {behind after : List Char} {value : String} (hne : value ≠ "")
    (hcontent : t.content = behind ++ (value.toList ++ after)) : t.Reads behind.length value := by
  have howned : ∀ i c, value.toList[i]? = some c →
      Owned (t.owner? (behind.length + i)) (t.location (behind.length + i)) c := by
    intro i c hc
    have hlt : i < value.toList.length := (List.getElem?_eq_some_iff.1 hc).1
    rw [location_eq hr]
    refine exists_owner t hr ?_
    rw [hcontent, List.getElem?_append_right (Nat.le_add_right _ _), Nat.add_sub_cancel_left,
      List.getElem?_append_left hlt, hc]
  refine ⟨fun lookups => ?_, ?_, howned⟩
  · have hin : behind.length + value.length ≤ t.length := by
      rw [length_eq_length_content t hr, hcontent, List.length_append, List.length_append, String.length_toList]
      omega
    rw [looks_read hr lookups hin, hcontent, List.drop_left, ← String.length_toList, List.take_left]
  · obtain ⟨c, rest, hvalue⟩ := List.exists_cons_of_ne_nil (fun h => hne (String.toList_eq_nil_iff.1 h))
    obtain ⟨-, l, -, hl, -⟩ := howned 0 c (by rw [hvalue]; rfl)
    exact ⟨l, hl⟩

end Text

/-! ## The errors of a parse -/

section Unexpected

variable {index line column offset : Nat} {found : String} {expected : List String}

theorem State.failure_unexpected {s : State} {input : Input}
    (h : s.failure input = .unexpectedToken index found line column offset expected) :
    ∃ k, input.read index = some k ∧ k.value = found ∧ k.line = line ∧ k.column = column ∧ k.range.start = offset := by
  unfold failure at h
  dsimp only at h
  split at h
  · rename_i k hread
    cases h
    exact ⟨k, hread, rfl, rfl, rfl, rfl⟩
  · cases h

/-- No attempt fails for good with a token. -/
theorem Grammar.Raises.ne_unexpected {g : Grammar} {input : Input} {m : Matcher} {s : State} {e : ParseError}
    (h : g.Raises input m s e) : e ≠ .unexpectedToken index found line column offset expected := by
  cases h <;> exact nofun

/-- **An unexpected token is a token of the input**, and the error has its position and what it reads. -/
theorem Grammar.parseRule_unexpected {g : Grammar} {key : RuleKey} {config : ParserConfig} {tokens : List Token}
    (h : g.parseRule key config tokens = .error (.unexpectedToken index found line column offset expected)) :
    ∃ k, tokens[index]? = some k ∧ k.value = found ∧ k.line = line ∧ k.column = column ∧ k.range.start = offset := by
  rw [← List.getElem?_toArray]
  rcases parseRule_error h with ⟨t, hfailure⟩ | ⟨n, t, -, hraises⟩
  · exact State.failure_unexpected hfailure.symm
  · exact absurd rfl hraises.ne_unexpected

end Unexpected

/-- **The tokens of a text in layers are where they say they are.**  Every cursor on the text, whatever it has looked up
before, reads a token of its characters at the range of the token.  The text has a location there, and that of each
character is its place in the layer that has it, with the places of the sources that this came from below it.  If the text
cannot be parsed because of an unexpected token, then that is a token of the text and the error has its offset. -/
theorem Text.Built.reads_tokens {t : Text} (built : t.Built) :
    (∀ k ∈ lex t.toString, k.value ≠ "" ∧ k.range.stop = k.range.start + k.value.length ∧
      t.Reads k.range.start k.value) ∧
    ∀ g index found line column offset expected,
      Grammar.parseText g t = .error (.unexpectedToken index found line column offset expected) →
        t.Reads offset found ∧ ∃ k, (lex t.toString)[index]? = some k ∧ k.value = found ∧ k.line = line ∧
          k.column = column ∧ k.range.start = offset := by
  have hr := built.inRange
  have hreads : ∀ k ∈ lex t.toString, k.value ≠ "" ∧ k.range.stop = k.range.start + k.value.length ∧
      t.Reads k.range.start k.value := by
    intro k hk
    obtain ⟨behind, after, hsource, hne, hrange⟩ := exists_slice hk
    rw [toString, String.toList_ofList, spell_eq_content t hr] at hsource
    rw [hrange]
    exact ⟨hne, rfl, hr.reads hne hsource⟩
  refine ⟨hreads, fun g index found line column offset expected h => ?_⟩
  have hparse : g.parse (lex t.toString) = .error (.unexpectedToken index found line column offset expected) := by
    unfold Grammar.parseText at h
    cases hroot : g.parse (lex t.toString) with
    | ok root =>
      rw [hroot] at h
      cases h
    | error e =>
      rw [hroot] at h
      cases h
      rfl
  obtain ⟨k, hk, rfl, rfl, rfl, rfl⟩ := Grammar.parseRule_unexpected hparse
  exact ⟨(hreads k (List.mem_of_getElem? hk)).2.2, k, hk, rfl, rfl, rfl, rfl⟩

/-- A number that begins in an expansion and goes on behind it is not expected.  Its offset leads to the expansion, and
the digit behind it is where it is in the file. -/
theorem Text.reads_tokens_expansion : ∃ (g : Grammar) (t : Text), t.Built ∧
    Grammar.parseText g t = .error (.unexpectedToken 2 "12" 1 2 2 ["\")\""]) ∧ t.Reads 2 "12" ∧
    t.location 2 = some (.produced ⟨some "N", 1, 1⟩ (.source ⟨some "main.c", 1, 3⟩)) ∧
    t.location 3 = some (.source ⟨some "main.c", 1, 4⟩) := by
  let g : Grammar := ⟨#[⟨"call", .sequence [.tokenType TokenType.identifier, .literal "(", .literal ")"], .never⟩], 0⟩
  let expansion : Text := .transformed (.located "N" "1") (.locatedAt "main.c" "N" 1 3)
  let t : Text := .composite [.located "main.c" "f(", expansion, .locatedAt "main.c" "2)" 1 4]
  have built : t.Built := by
    refine .composite _ (fun u hu => ?_)
    simp only [List.mem_cons, List.not_mem_nil, or_false] at hu
    rcases hu with rfl | rfl | rfl
    · exact .locatedAt ..
    · exact .transformed (.locatedAt ..) (.locatedAt ..)
    · exact .locatedAt ..
  have hlex : lex t.toString = [⟨"f", TokenType.identifier, 1, 0, ⟨0, 1⟩⟩, ⟨"(", TokenType.punctuator, 1, 1, ⟨1, 2⟩⟩,
      ⟨"12", TokenType.number, 1, 2, ⟨2, 4⟩⟩, ⟨")", TokenType.punctuator, 1, 4, ⟨4, 5⟩⟩] := by decide +kernel
  have hparse : g.parseText t = .error (.unexpectedToken 2 "12" 1 2 2 ["\")\""]) := by
    rw [Grammar.parseText, hlex]
    rfl
  refine ⟨g, t, built, hparse, (built.reads_tokens.2 _ _ _ _ _ _ _ hparse).1, ?_, ?_⟩
  · decide +kernel
  · decide +kernel

end LayeredParse
