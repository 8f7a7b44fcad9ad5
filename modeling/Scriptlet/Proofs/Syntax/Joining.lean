import Scriptlet.Proofs.Syntax.Expressions
import Scriptlet.Proofs.Syntax.Locality
import Scriptlet.Proofs.Token.Layout

/-!
# Sources joined by a comma

A comma goes on with no token and with no expression. So where a source ends that can be read, a
comma ends it as well, and the statements behind the comma are read as if they stood alone.
-/

namespace Scriptlet

open Node (SameShape SameShapes)

/-! ## Tokens -/

/-- Two sources with a comma and a line break between them. -/
def joined (a b : List UInt8) : List UInt8 := a ++ 44 :: 10 :: b

theorem Laid.moved {p : Position} {bytes after : List UInt8} {tokens : List Token}
    {skips : List Skip} (h : Laid p bytes tokens skips after) (q : Position) :
    ∃ tokens' skips', Parser.SameLexemes tokens tokens' ∧ Laid q bytes tokens' skips' after := by
  induction h generalizing q with
  | done => exact ⟨[], [], rfl, .done q _⟩
  | blank isBlank _ ih =>
      obtain ⟨tokens', skips', same, laid⟩ := ih (q.advance _)
      exact ⟨tokens', skips', same, .blank isBlank laid⟩
  | unknown none _ ih =>
      obtain ⟨tokens', skips', same, laid⟩ := ih (q.advance _)
      exact ⟨tokens', _, same, .unknown none laid⟩
  | @token p l spelling bytes after tokens skips spelled _ ih =>
      obtain ⟨tokens', skips', same, laid⟩ := ih (q.past spelling)
      exact ⟨⟨l, q⟩ :: tokens', skips', congrArg (l :: ·) same, .token spelled laid⟩

theorem Scan.laid_of_finished {bytes : List UInt8} {p : Position}
    (h : (ofBytes bytes).ending = .finished p) :
    Laid .start bytes (ofBytes bytes).tokens (ofBytes bytes).skips [] := by
  obtain ⟨row, after, hbytes, laid, ends⟩ := exists_laid bytes
  rw [h] at ends
  cases ends
  rw [List.append_nil] at hbytes
  subst hbytes
  exact laid

theorem comma_parted (bytes : List UInt8) : Parted (44 :: bytes) := parted_cons (by decide) bytes

theorem Scan.exists_joined {a b : List UInt8} {p q : Position}
    (ha : (ofBytes a).ending = .finished p) (hb : (ofBytes b).ending = .finished q) :
    ∃ place tokens skips last, Parser.SameLexemes (ofBytes b).tokens tokens ∧
      ofBytes (joined a b) =
        ⟨(ofBytes a).tokens ++ ⟨.symbol .comma, place⟩ :: tokens, skips, .finished last⟩ := by
  have first := (comma_parted (10 :: b ++ [])).laid (laid_of_finished ha)
  obtain ⟨tokens, skips, same, second⟩ := (laid_of_finished hb).moved
    (((Position.start.past a).past [44]).advance 10)
  have comma : SpelledBefore (.symbol .comma) [44] (10 :: b ++ []) := .single rfl _
  have laid := first.append (.token comma (.blank rfl second))
  exact ⟨_, tokens, _, _, same, ofBytes_eq_of_laid laid⟩

/-! ## Statements -/

namespace Parser

def NoLastComma (u : List Token) : Prop := ∀ t ∈ u.getLast?, t.lexeme ≠ .symbol .comma

theorem NoLastComma.of_append {w u : List Token} (h : NoLastComma (w ++ u)) : NoLastComma u := by
  intro t ht
  refine h t ?_
  rw [List.getLast?_append, ht]
  rfl

theorem NoLastComma.of_cons {t : Token} {u : List Token} (h : NoLastComma (t :: u)) :
    NoLastComma u := of_append (w := [t]) h

theorem NoLastComma.ne_nil {p : Position} {u : List Token}
    (h : NoLastComma (⟨.symbol .comma, p⟩ :: u)) : u ≠ [] := by
  rintro rfl
  exact h _ rfl rfl

theorem stops_comma (p : Position) (rest : List Token) :
    StopsAt (nextLexeme? (⟨.symbol .comma, p⟩ :: rest)) :=
  amongSymbols_some (by simp)

/-- Where `p` reads all of `u`, the same lexemes and a comma are read by `q`, which then reads
behind the comma what `more` reads there. -/
def Joins (p q more : Parser (List Node)) (u : List Token) : Prop :=
  ∀ nodes v, p u = .ok (nodes, []) → SameLexemes u v → ∀ place rest,
    ∃ nodes', List.Forall₂ SameShape nodes nodes' ∧
      q (v ++ ⟨.symbol .comma, place⟩ :: rest) =
        (more >>= fun later => Pure.pure (nodes' ++ later)) rest

theorem Joins.shift {f g : Position → Parser (List Node)} {more : Parser (List Node)} {t : Token}
    {u : List Token} (h : ∀ p p', Joins (f p) (g p') more u) :
    Joins (shift f) (shift g) more (t :: u) := by
  intro nodes v hread hv
  obtain ⟨p, w, rfl, hw⟩ := hv.of_cons
  exact h t.position p nodes w hread hw

section

variable {expr inner statement statement' : Parser Node} {more : Parser (List Node)}

theorem bind_of_ok {α β : Type} {p : Parser α} {f : α → Parser β} {tokens rest : List Token} {a : α}
    (h : p tokens = .ok (a, rest)) : (p >>= f) tokens = f a rest := by
  change Parser.bind p f tokens = _
  unfold Parser.bind
  rw [h]

theorem accept_eq_false_of_next {s : Symbol} {tokens tokens' : List Token}
    (h : accept s tokens = .ok (false, tokens)) (hnext : nextLexeme? tokens = nextLexeme? tokens') :
    accept s tokens' = .ok (false, tokens') := by
  have hlocal := (localNext_accept s).localAt []
  obtain ⟨_, rfl, hread⟩ := hlocal.success h rfl (.inl hnext)
  exact hread

/-- A statement in front of statements that are joined. -/
theorem cons_joined {first : Node} {nodes : List Node} {tokens rest : List Token}
    (h : more tokens = (more >>= fun later => Pure.pure (nodes ++ later)) rest) :
    (more >>= fun later => Pure.pure (first :: later)) tokens =
      (more >>= fun later => Pure.pure (first :: nodes ++ later)) rest := by
  change Parser.bind more _ tokens = Parser.bind more _ rest
  change more tokens = Parser.bind more _ rest at h
  unfold Parser.bind at h ⊢
  rw [h]
  cases more rest <;> rfl

variable {n : Nat} (later : ∀ u, u.length < n → u ≠ [] → NoLastComma u → Joins more more more u)

include later

/-- A control statement ends with a token of its own, and a comma behind it may be left out. -/
theorem joins_afterControl (hnil : more [] = .ok ([], []))
    (hstatement : Local (fun _ => True) SameShape statement statement') {u : List Token}
    (hu : u.length < n) (hlast : NoLastComma u) :
    Joins (afterControl more statement) (afterControl more statement') more u := by
  intro nodes v hread hv place rest
  obtain ⟨first, r, hfirst, h₁⟩ := bind_eq_ok_iff.mp hread
  obtain ⟨comma, r₂, hcomma, h₂⟩ := bind_eq_ok_iff.mp h₁
  obtain ⟨others, _, hothers, hpure⟩ := bind_eq_ok_iff.mp h₂
  cases hpure
  obtain ⟨w, rfl⟩ := hstatement.cuts.of_ok hfirst
  obtain ⟨w', r', rfl, hw, hr⟩ := hv.of_append
  have hbehind : Behind (fun _ => True) r (r' ++ ⟨.symbol .comma, place⟩ :: rest) := .inr trivial
  obtain ⟨first', hshape, hfirst'⟩ := (hstatement.localAt w).success hfirst hw hbehind
  rw [List.append_assoc]
  unfold afterControl
  rw [bind_of_ok hfirst']
  have hlength : r.length ≤ (w ++ r).length := by simp
  cases comma with
  | true =>
      obtain ⟨p, rfl⟩ := accept_eq_true hcomma
      obtain ⟨p', r₂', rfl, hr₂⟩ := hr.of_cons
      have hend := hlast.of_append
      obtain ⟨others', hshapes, hjoined⟩ := later r₂ (by simp at hu hlength; omega) hend.ne_nil
        hend.of_cons others r₂' hothers hr₂ place rest
      refine ⟨first' :: others', .cons hshape hshapes, ?_⟩
      rw [List.cons_append, bind_of_ok (accept_symbol .comma p' _)]
      exact cons_joined hjoined
  | false =>
      obtain rfl := accept_eq_false hcomma
      cases r with
      | nil =>
          obtain rfl : r' = [] := List.map_eq_nil_iff.mp hr.symm
          rw [hnil] at hothers
          cases hothers
          refine ⟨[first'], .cons hshape .nil, ?_⟩
          rw [List.nil_append, bind_of_ok (accept_symbol .comma place rest)]
          rfl
      | cons t r =>
          obtain ⟨others', hshapes, hjoined⟩ := later (t :: r) (by omega) (List.cons_ne_nil t r)
            hlast.of_append others r' hothers hr place rest
          refine ⟨first' :: others', .cons hshape hshapes, ?_⟩
          obtain ⟨p', r'', rfl, -⟩ := hr.of_cons
          have hnext : nextLexeme? (t :: r) =
            nextLexeme? (⟨t.lexeme, p'⟩ :: r'' ++ ⟨.symbol .comma, place⟩ :: rest) := rfl
          rw [bind_of_ok (accept_eq_false_of_next hcomma hnext)]
          exact cons_joined hjoined

/-- A simple statement is followed by a comma or is the last one, and then a comma may follow. -/
theorem joins_afterSimple (hstatement : Local StopsAt SameShape statement statement')
    {u : List Token} (hu : u.length ≤ n) (hlast : NoLastComma u) :
    Joins (afterSimple more statement) (afterSimple more statement') more u := by
  intro nodes v hread hv place rest
  obtain ⟨first, r, hfirst, h₁⟩ := bind_eq_ok_iff.mp hread
  obtain ⟨comma, r₂, hcomma, h₂⟩ := bind_eq_ok_iff.mp h₁
  obtain ⟨w, rfl⟩ := hstatement.cuts.of_ok hfirst
  obtain ⟨w', r', rfl, hw, hr⟩ := hv.of_append
  rw [List.append_assoc]
  unfold afterSimple
  cases comma with
  | true =>
      obtain ⟨others, _, hothers, hpure⟩ := bind_eq_ok_iff.mp h₂
      cases hpure
      obtain ⟨p, rfl⟩ := accept_eq_true hcomma
      obtain ⟨p', r₂', rfl, hr₂⟩ := hr.of_cons
      have hend := hlast.of_append
      obtain ⟨others', hshapes, hjoined⟩ := later r₂ (by simp at hu; omega) hend.ne_nil
        hend.of_cons others r₂' hothers hr₂ place rest
      obtain ⟨first', hshape, hfirst'⟩ := (hstatement.localAt w).success hfirst hw
        (.inr (stops_comma p' (r₂' ++ ⟨.symbol .comma, place⟩ :: rest)))
      refine ⟨first' :: others', .cons hshape hshapes, ?_⟩
      rw [List.cons_append, bind_of_ok hfirst', bind_of_ok (accept_symbol .comma p' _)]
      exact cons_joined hjoined
  | false =>
      obtain rfl := accept_eq_false hcomma
      cases h₂
      obtain rfl : r' = [] := List.map_eq_nil_iff.mp hr.symm
      obtain ⟨first', hshape, hfirst'⟩ := (hstatement.localAt w).success hfirst hw
        (.inr (stops_comma place rest))
      refine ⟨[first'], .cons hshape .nil, ?_⟩
      rw [List.nil_append, bind_of_ok hfirst', bind_of_ok (accept_symbol .comma place rest)]
      rfl

omit later in
theorem joins_statementsWith (hexpr : Local StopsAt SameShape expr expr)
    (hinner : LocalNext SameShape inner inner) {u : List Token} (hu : u ≠ [])
    (hlast : NoLastComma u) :
    Joins (statementsWith expr inner) (statementsWith expr inner)
      (statementsWith expr inner) u := by
  induction hn : u.length using Nat.strongRecOn generalizing u with
  | ind n ih =>
      have later : ∀ u, u.length < n → u ≠ [] → NoLastComma u → Joins (statementsWith expr inner)
          (statementsWith expr inner) (statementsWith expr inner) u :=
        fun u hu hne hend => ih _ hu hne hend rfl
      obtain ⟨t, w, rfl⟩ := List.exists_cons_of_ne_nil hu
      rw [List.length_cons] at hn
      have hby : Joins
          (statementsBy expr inner (statementsWith expr inner) (nextLexeme? (t :: w)))
          (statementsBy expr inner (statementsWith expr inner) (nextLexeme? (t :: w)))
          (statementsWith expr inner) (t :: w) := by
        unfold statementsBy
        cases hstart : start (nextLexeme? (t :: w)) with
        | stop =>
            intro _ _ hread
            cases hread
        | control form =>
            exact .shift fun p p' => joins_afterControl later rfl
              (local_control hexpr hinner hstart p p') (by omega) hlast.of_cons
        | simple form =>
            exact .shift fun p p' => joins_afterSimple later
              (local_simple hexpr hinner hstart p p') (by omega) hlast.of_cons
        | expression => exact joins_afterSimple later hexpr (by simp; omega) hlast
      intro nodes v hread hv place rest
      rw [statementsWith_eq hexpr.cuts hinner.cuts] at hread
      obtain ⟨nodes', hshapes, hjoined⟩ := hby nodes v hread hv place rest
      refine ⟨nodes', hshapes, ?_⟩
      obtain ⟨p, w', rfl, -⟩ := hv.of_cons
      rw [statementsWith_eq hexpr.cuts hinner.cuts]
      exact hjoined

end

theorem joins_statements (depth : Nat) {u : List Token} (hu : u ≠ []) (hlast : NoLastComma u) :
    Joins (statements depth) (statements depth) (statements depth) u := by
  have hexpr := local_expression (local_operand depth)
  cases depth with
  | zero => exact joins_statementsWith hexpr .tooDeep hu hlast
  | succ depth => exact joins_statementsWith hexpr (local_body (local_statements depth)) hu hlast

end Parser

/-! ## Sources -/

namespace Parsed

theorem exists_statements {nesting : Nat} {bytes : List UInt8}
    (h : (ofBytes nesting bytes).error = none) :
    ∃ nodes last, Parser.statements nesting (Scan.ofBytes bytes).tokens = .ok (nodes, []) ∧
      (Scan.ofBytes bytes).ending = .finished last ∧
      (ofBytes nesting bytes).tree = .root nodes (nodes.head?.bind Node.position) := by
  unfold ofBytes ofScan Parser.root at h ⊢
  cases hread : Parser.statements nesting (Scan.ofBytes bytes).tokens with
  | error failure =>
      rw [hread] at h
      cases h
  | ok result =>
      obtain ⟨nodes, rest⟩ := result
      rw [hread] at h
      cases rest with
      | cons t rest => cases h
      | nil =>
          cases hending : (Scan.ofBytes bytes).ending with
          | unclosed quote =>
              rw [hending] at h
              cases h
          | finished last => exact ⟨nodes, last, rfl, rfl, rfl⟩

/-- Joined sources are read as the statements of the one and then those of the other. -/
theorem ofBytes_joined {nesting : Nat} {a b : List UInt8} (ha : (ofBytes nesting a).error = none)
    (hb : (ofBytes nesting b).error = none)
    (hlast : ∃ t, (Scan.ofBytes a).tokens.getLast? = some t ∧ t.lexeme ≠ .symbol .comma) :
    (ofBytes nesting (joined a b)).error = none ∧
      SameShape (.root ((ofBytes nesting a).tree.statements ++ (ofBytes nesting b).tree.statements)
        none) (ofBytes nesting (joined a b)).tree := by
  obtain ⟨xs, _, hxs, hendA, htreeA⟩ := exists_statements ha
  obtain ⟨ys, _, hys, hendB, htreeB⟩ := exists_statements hb
  obtain ⟨place, tokens, skips, last, same, hscan⟩ := Scan.exists_joined hendA hendB
  obtain ⟨t, ht, hcomma⟩ := hlast
  have hne : (Scan.ofBytes a).tokens ≠ [] := by
    intro hnil
    rw [hnil] at ht
    cases ht
  have hend : Parser.NoLastComma (Scan.ofBytes a).tokens := by
    intro t' ht'
    cases ht.symm.trans ht'
    exact hcomma
  obtain ⟨xs', hxs', hjoined⟩ :=
    Parser.joins_statements nesting hne hend xs _ hxs rfl place tokens
  have hlocal := (Parser.local_statements nesting).localAt (Scan.ofBytes b).tokens
  rw [← List.append_nil (Scan.ofBytes b).tokens] at hys
  obtain ⟨ys', hys', hread⟩ := hlocal.success hys same (.inl rfl)
  rw [List.append_nil] at hread
  have hstatements := hjoined.trans (Parser.bind_of_ok hread)
  have htree : ofBytes nesting (joined a b) =
      ⟨.root (xs' ++ ys') ((xs' ++ ys').head?.bind Node.position), skips, none⟩ := by
    unfold ofBytes ofScan Parser.root
    rw [hscan]
    dsimp only
    rw [hstatements]
    rfl
  rw [htree, htreeA, htreeB]
  exact ⟨rfl, .root (Parser.sameShapes_of_forall₂ (List.rel_append hxs' hys'))⟩

end Parsed

end Scriptlet
