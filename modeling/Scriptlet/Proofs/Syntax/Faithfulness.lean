import Scriptlet.Proofs.Syntax.ReadBack

/-!
# A tree is faithful to its tokens

What the parser has read, written back, is the source without its optional commas, and the parser
reads the same tree from it once more. An expression is read from the very tokens it was read from
before. Statements may have lost commas, so they are followed along the run that has read them.
-/

open Scriptlet.Node (SameShape SameShapes written writtenAll needsComma)

namespace Scriptlet

namespace Parser

/-- Whatever the parser has read it reads back from its written form. -/
def Rereads (S : Option Lexeme → Prop) (p : Parser Node) : Prop :=
  ∀ ⦃tokens n rest⦄, p tokens = .ok (n, rest) → ReadsBack S SameShape p n (written needsComma n)

theorem rereads_tooDeep (S : Option Lexeme → Prop) : Rereads S tooDeep := by
  intro tokens n rest h
  cases h

theorem rereads_expression (depth : Nat) : Rereads StopsAt (expression (operand depth)) := by
  intro tokens n rest h v rest' hv hrest'
  obtain ⟨w, rfl, hspells⟩ := reads_expression depth h
  have hsame : SameLexemes w v := (Part.Written.expression hspells.isWritten).1.trans hv.symm
  exact ((local_expression (local_operand depth)).localAt w).success h hsame (.inr hrest')

section

variable {expr inner : Parser Node} {tokens rest : List Token} {p : Position} {n : Node}

theorem expression_rereads (hexpr : Rereads StopsAt expr)
    (hreads : ReadsPart (.expression levels) expr)
    (h : expr tokens = .ok (n, rest)) :
    ReadsSimple expr inner n (written needsComma n) ∧ n.isControl = false := by
  obtain ⟨w, rfl, hspells⟩ := hreads h
  obtain ⟨_, hn, his, hwritten, -⟩ := hspells.isWritten fun _ hlevel => hlevel
  cases hn
  obtain ⟨t, v, rfl, hstart⟩ := (Part.Derivable.expr hspells.derivable).head
  have hl : (written needsComma n).head? = some t.lexeme := by
    rw [← hwritten]
    rfl
  exact ⟨readsSimple_expression (hexpr h) hl (start_of_startsOperand hstart), his⟩

section

variable (hcuts : Cuts expr) (hcuts' : Cuts inner) (hexpr : Rereads StopsAt expr)
  (hinner : Rereads ClosesAt inner)

include hcuts hcuts' hexpr hinner

/-- The parts of a statement were read, so they are read back. -/
theorem form_rereads {form : Form Clause}
    (h : form.parser (clauseReaders expr inner) p tokens = .ok (n, rest)) :
    ∃ r, n = form.build r p ∧ form.pattern.PartsReadBack Clause.follow (clauseReaders expr inner)
      (written needsComma) r := by
  -- What a reader has spelled is whatever it has read.
  let T (role : Clause) (n : Node) (w rest : List Token) : Prop :=
    clauseReaders expr inner role (w ++ rest) = .ok (n, rest)
  have hreaders (role : Clause) : ReadsBefore (T role) (clauseReaders expr inner role) := by
    intro tokens n rest h
    obtain ⟨w, rfl⟩ := (cuts_clause hcuts hcuts' role).of_ok h
    exact ⟨w, rfl, h⟩
  obtain ⟨w, rfl, r, rfl, hspells⟩ := form.reads hreaders p h
  refine ⟨r, rfl, hspells.parts fun {role n w rest} hread => ?_⟩
  cases role with
  | expression => exact hexpr hread
  | body => exact hinner hread

theorem control_rereads {l : Lexeme} {form : Form Clause} (hform : start (some l) = .control form)
    (h : form.parser (clauseReaders expr inner) p tokens = .ok (n, rest)) :
    ReadsControl expr inner n (written needsComma n) ∧ n.isControl = true := by
  obtain ⟨r, rfl, hr⟩ := form_rereads hcuts hcuts' hexpr hinner h
  obtain ⟨hwritten, his⟩ := written_control needsComma p hform r
  rw [hwritten]
  exact ⟨readsControl_form hcuts hcuts' hr rfl hform, his⟩

theorem simple_rereads {l : Lexeme} {form : Form Clause} (hform : start (some l) = .simple form)
    (h : form.parser (clauseReaders expr inner) p tokens = .ok (n, rest)) :
    ReadsSimple expr inner n (written needsComma n) ∧ n.isControl = false := by
  obtain ⟨r, rfl, hr⟩ := form_rereads hcuts hcuts' hexpr hinner h
  obtain ⟨hwritten, his⟩ := written_simple needsComma p hform r
  rw [hwritten]
  exact ⟨readsSimple_form hcuts hcuts' hr rfl hform, his⟩

end

/-! ## Sequences -/

theorem of_shift {f : Position → Parser Node} {P : Prop} (h : shift f tokens = .ok (n, rest))
    (hf : ∀ {p tokens}, f p tokens = .ok (n, rest) → P) : P := by
  cases tokens with
  | nil => cases h
  | cons t tokens => exact hf h

/-- The sequence, as far as runs over at most `m` tokens go. -/
def SequenceRereads (p : Parser (List Node)) (m : Nat) : Prop :=
  ∀ ⦃tokens xs rest⦄, tokens.length ≤ m → p tokens = .ok (xs, rest) →
    ReadsBack ClosesAt SameShapes p xs (writtenAll needsComma needsComma xs)

section

variable (hcuts : Cuts expr) (hcuts' : Cuts inner) {m : Nat} {q : Parser Node} {xs : List Node}

include hcuts hcuts'

theorem afterControl_rereads (hmore : SequenceRereads (statementsWith expr inner) m)
    (hspells : Reads (Spells .statements) (statementsWith expr inner)) (hconsumes : Consumes q)
    (hq : ∀ {tokens n rest}, q tokens = .ok (n, rest) →
      ReadsControl expr inner n (written needsComma n) ∧ n.isControl = true)
    (hlength : tokens.length ≤ m + 1)
    (h : afterControl (statementsWith expr inner) q tokens = .ok (xs, rest)) :
    ReadsBack ClosesAt SameShapes (statementsWith expr inner) xs
      (writtenAll needsComma needsComma xs) := by
  obtain ⟨n, after, hn, h⟩ := bind_eq_ok_iff.mp h
  obtain ⟨_, later, hcomma, h⟩ := bind_eq_ok_iff.mp h
  obtain ⟨others, _, hothers, hpure⟩ := bind_eq_ok_iff.mp h
  cases hpure
  obtain ⟨hcontrol, his⟩ := hq hn
  have hshorter := hconsumes hn
  have hlater := (Cuts.accept .comma).length_le hcomma
  obtain ⟨w, -, hw⟩ := hspells hothers
  have hno : (writtenAll needsComma needsComma others).head? ≠ some (.symbol .comma) := by
    rcases hw.isWritten.1 with ⟨rfl, -⟩ | ⟨-, -, l, ls, hopens, hl⟩
    · simp [writtenAll]
    · rw [hopens]
      rintro heq
      cases heq
      cases hl
  rw [Node.writtenAll_control his]
  exact hcontrol.cons hcuts hcuts' (hmore (by omega) hothers) hno

theorem afterSimple_rereads (hmore : SequenceRereads (statementsWith expr inner) m)
    (hqcuts : Cuts q)
    (hq : ∀ {tokens n rest}, q tokens = .ok (n, rest) →
      ReadsSimple expr inner n (written needsComma n) ∧ n.isControl = false)
    (hlength : tokens.length ≤ m + 1)
    (h : afterSimple (statementsWith expr inner) q tokens = .ok (xs, rest)) :
    ReadsBack ClosesAt SameShapes (statementsWith expr inner) xs
      (writtenAll needsComma needsComma xs) := by
  obtain ⟨n, after, hn, h⟩ := bind_eq_ok_iff.mp h
  obtain ⟨comma, later, hcomma, h⟩ := bind_eq_ok_iff.mp h
  obtain ⟨hsimple, his⟩ := hq hn
  cases comma with
  | false =>
      cases h
      exact hsimple.last hcuts hcuts'
  | true =>
      obtain ⟨others, _, hothers, hpure⟩ := bind_eq_ok_iff.mp h
      cases hpure
      have hafter := hqcuts.length_le hn
      have hlater := accept_true_length hcomma
      have hreads := hmore (by omega) hothers
      by_cases hnone : others = []
      · subst hnone
        exact hsimple.last hcuts hcuts'
      · rw [Node.writtenAll_simple his hnone]
        exact hsimple.cons hcuts hcuts' hreads

end

theorem statementsWith_rereads (hcuts : Cuts expr) (hcuts' : Cuts inner)
    (hreads : ReadsPart (.expression levels) expr) (hreads' : ReadsBody inner)
    (hexpr : Rereads StopsAt expr) (hinner : Rereads ClosesAt inner) (m : Nat) :
    SequenceRereads (statementsWith expr inner) m := by
  have hspells : Reads (Spells .statements) (statementsWith expr inner) := fun h =>
    reads_statementsFrom hreads hreads' _ h
  induction m with
  | zero =>
      intro tokens xs rest hlength h
      obtain rfl := List.length_eq_zero_iff.mp (Nat.le_zero.mp hlength)
      cases h
      exact statements_readsBack_nil
  | succ m ih =>
      intro tokens xs rest hlength h
      rw [statementsWith_eq hcuts hcuts'] at h
      have hclause := cuts_clause hcuts hcuts'
      cases hstart : start (nextLexeme? tokens) with
      | stop =>
          rw [statementsBy_stop hstart] at h
          cases h
          exact statements_readsBack_nil
      | expression =>
          rw [statementsBy_expression hstart] at h
          exact afterSimple_rereads hcuts hcuts' ih hcuts
            (fun hq => expression_rereads hexpr hreads hq) hlength h
      | control form =>
          rw [statementsBy_control hstart, shift_afterControl] at h
          cases tokens with
          | nil => cases hstart
          | cons t tokens =>
              exact afterControl_rereads hcuts hcuts' ih hspells
                (consumes_shift (form.cuts hclause))
                (fun hq => of_shift hq fun hq =>
                  control_rereads hcuts hcuts' hexpr hinner hstart hq) hlength h
      | simple form =>
          rw [statementsBy_simple hstart, shift_afterSimple] at h
          cases tokens with
          | nil => cases hstart
          | cons t tokens =>
              exact afterSimple_rereads hcuts hcuts' ih (.shift (form.cuts hclause))
                (fun hq => of_shift hq fun hq =>
                  simple_rereads hcuts hcuts' hexpr hinner hstart hq) hlength h

end

theorem rereads_body {sequence : Parser (List Node)} (h : ∀ m, SequenceRereads sequence m) :
    Rereads ClosesAt (body sequence) := by
  intro tokens n rest hn
  unfold body at hn
  cases hs : sequence tokens with
  | error failure =>
      rw [hs] at hn
      cases hn
  | ok result =>
      obtain ⟨xs, after⟩ := result
      rw [hs] at hn
      cases hn
      exact body_readsBack (h _ (Nat.le_refl _) hs) _

theorem statements_rereads (depth m : Nat) : SequenceRereads (statements depth) m := by
  induction depth generalizing m with
  | zero =>
      exact statementsWith_rereads (.expression 0) .tooDeep (reads_expression 0) readsBody_tooDeep
        (rereads_expression 0) (rereads_tooDeep _) m
  | succ depth ih =>
      exact statementsWith_rereads (.expression _) (.body (.statements depth)) (reads_expression _)
        (readsBody_body (reads_statements depth)) (rereads_expression _) (rereads_body ih) m

/-- The written form of a program is read back as the program. -/
theorem root_rereads {depth : Nat} {tokens : List Token} {tree : Node}
    (h : root depth tokens = .ok (tree, [])) {v : List Token}
    (hv : lexemes v = written needsComma tree) :
    ∃ tree', root depth v = .ok (tree', []) ∧ SameShape tree tree' := by
  unfold root at h
  cases hs : statements depth tokens with
  | error failure =>
      rw [hs] at h
      cases h
  | ok result =>
      obtain ⟨nodes, after⟩ := result
      rw [hs] at h
      cases after with
      | cons t after => cases h
      | nil =>
          cases h
          have hreads := statements_rereads depth _ (Nat.le_refl _) hs
          exact root_reads (hv ▸ hreads) _

end Parser

/-- A tree is faithful to its tokens: written back, it has the kinds and values of the source
without the optional commas, and it is read again from tokens of these kinds and values. -/
theorem tree_faithful_to_tokens (depth : Nat) (bytes : List UInt8)
    (h : (Parsed.ofBytes depth bytes).error = none) :
    written needsComma (Parsed.ofBytes depth bytes).tree =
        withoutOptionalCommas none (lexemes (Scan.ofBytes bytes).tokens) ∧
      ∀ tokens, lexemes tokens = written needsComma (Parsed.ofBytes depth bytes).tree →
        ∃ tree, Parser.root depth tokens = .ok (tree, []) ∧
          SameShape (Parsed.ofBytes depth bytes).tree tree := by
  unfold Parsed.ofBytes Parsed.ofScan at h ⊢
  cases hroot : Parser.root depth (Scan.ofBytes bytes).tokens with
  | error failure =>
      rw [hroot] at h
      cases h
  | ok result =>
      obtain ⟨tree, rest⟩ := result
      obtain ⟨rfl, nodes, rfl, hspells⟩ := Parser.root_eq_ok hroot
      rw [hroot] at h
      cases hend : (Scan.ofBytes bytes).ending with
      | unclosed quote =>
          rw [hend] at h
          cases h
      | finished p =>
          have hwritten := hspells.isWritten.2 none [] (.inl rfl)
          simp only [List.append_nil, withoutOptionalCommas] at hwritten
          exact ⟨hwritten.symm, fun tokens htokens => Parser.root_rereads hroot htokens⟩

/-- The source is `if a:x=b,else y,;,-f(x,z)==x=a,`, in which four commas are optional. -/
theorem tree_faithful_to_tokens_with_optional_commas :
    ∃ bytes, bytes = [105, 102, 32, 97, 58, 120, 61, 98, 44, 101, 108, 115, 101, 32, 121, 44, 59,
        44, 45, 102, 40, 120, 44, 122, 41, 61, 61, 120, 61, 97, 44] ∧
      (Parsed.ofBytes 3 bytes).error = none ∧
      written needsComma (Parsed.ofBytes 3 bytes).tree =
        withoutOptionalCommas none (lexemes (Scan.ofBytes bytes).tokens) ∧
      ∀ tokens, lexemes tokens = written needsComma (Parsed.ofBytes 3 bytes).tree →
        ∃ tree, Parser.root 3 tokens = .ok (tree, []) ∧
          SameShape (Parsed.ofBytes 3 bytes).tree tree :=
  ⟨_, rfl, by decide, tree_faithful_to_tokens 3 _ (by decide)⟩

end Scriptlet
