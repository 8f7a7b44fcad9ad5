import Scriptlet.Proofs.Syntax.Locality
import Scriptlet.Proofs.Syntax.Writing

/-!
# Reading what was written

A parser reads a tree back if it finds the tree, up to positions, in all tokens of certain kinds and
values. What it reads back is put together in the same way as the parser: a construct is read back
if its parts are, and a sequence of statements if they are, with or without the optional commas.
-/

namespace Scriptlet.Parser

open Node (SameShape SameShapes)

variable {α β : Type}

/-- From all tokens of the given kinds and values the parser reads `a`, up to `R`, if `S` holds of
what stands behind them. -/
def ReadsBack (S : Option Lexeme → Prop) (R : α → α → Prop) (p : Parser α) (a : α)
    (ls : List Lexeme) : Prop :=
  ∀ ⦃v rest⦄, lexemes v = ls → S (nextLexeme? rest) → ∃ a', R a a' ∧ p (v ++ rest) = .ok (a', rest)

/-! ## Tokens by their lexemes -/

theorem lexemes_eq_append {v : List Token} {a b : List Lexeme} (h : lexemes v = a ++ b) :
    ∃ u w, v = u ++ w ∧ lexemes u = a ∧ lexemes w = b :=
  List.map_eq_append_iff.mp h

theorem lexemes_eq_cons {v : List Token} {l : Lexeme} {ls : List Lexeme} (h : lexemes v = l :: ls) :
    ∃ p w, v = ⟨l, p⟩ :: w ∧ lexemes w = ls := by
  obtain ⟨⟨_, p⟩, w, rfl, rfl, rfl⟩ := List.map_eq_cons_iff.mp h
  exact ⟨p, w, rfl, rfl⟩

theorem lexemes_eq_nil {v : List Token} (h : lexemes v = []) : v = [] := List.map_eq_nil_iff.mp h

theorem nextLexeme?_append (v rest : List Token) :
    nextLexeme? (v ++ rest) = (lexemes v).head?.or (nextLexeme? rest) := by
  cases v <;> rfl

/-! ## Computations in parts -/

namespace ReadsBack

variable {S S' : Option Lexeme → Prop} {R : α → α → Prop} {Q : β → β → Prop} {p : Parser α}
  {f : α → Parser β} {a : α} {b : β} {u ls : List Lexeme}

theorem mono (h : ReadsBack S' R p a ls) (hS : ∀ next, S next → S' next) : ReadsBack S R p a ls :=
  fun _ _ hv hrest => h hv (hS _ hrest)

theorem pure {a a' : α} (h : R a a') : ReadsBack S R (Pure.pure a' : Parser α) a [] := by
  intro v rest hv _
  rw [lexemes_eq_nil hv]
  exact ⟨a', h, rfl⟩

theorem bind (first : ReadsBack S' R p a u) (hS : ∀ next, S next → S' (ls.head?.or next))
    (second : ∀ a', R a a' → ReadsBack S Q (f a') b ls) : ReadsBack S Q (p >>= f) b (u ++ ls) := by
  intro v rest hv hrest
  obtain ⟨v, w, rfl, hv, hw⟩ := lexemes_eq_append hv
  have hbehind : S' (nextLexeme? (w ++ rest)) := by
    rw [nextLexeme?_append, hw]
    exact hS _ hrest
  obtain ⟨a', haa', ha'⟩ := first hv hbehind
  obtain ⟨b', hbb', hb'⟩ := second a' haa' hw hrest
  refine ⟨b', hbb', bind_eq_ok_iff.mpr ⟨a', w ++ rest, ?_, hb'⟩⟩
  rw [List.append_assoc, ha']

theorem map {g : α → β} (h : ReadsBack S R p a ls) (hg : ∀ a', R a a' → Q b (g a')) :
    ReadsBack S Q (p >>= fun a => Pure.pure (g a)) b ls := by
  have hbind : ReadsBack S Q (p >>= fun a => Pure.pure (g a)) b (ls ++ []) :=
    bind h (fun _ hnext => hnext) fun a' haa' => .pure (hg a' haa')
  rwa [List.append_nil] at hbind

theorem bind_accept {s : Symbol} {f : Bool → Parser β} (h : ReadsBack S Q (f true) b ls) :
    ReadsBack S Q (accept s >>= f) b (.symbol s :: ls) := by
  intro v rest hv hrest
  obtain ⟨p, w, rfl, hw⟩ := lexemes_eq_cons hv
  obtain ⟨b', hbb', hb'⟩ := h hw hrest
  exact ⟨b', hbb', bind_eq_ok_iff.mpr ⟨true, w ++ rest, accept_symbol s p _, hb'⟩⟩

theorem bind_accept_other {s : Symbol} {f : Bool → Parser β}
    (hnext : ∀ next, S next → ls.head?.or next ≠ some (.symbol s))
    (h : ReadsBack S Q (f false) b ls) : ReadsBack S Q (accept s >>= f) b ls := by
  intro v rest hv hrest
  obtain ⟨b', hbb', hb'⟩ := h hv hrest
  refine ⟨b', hbb', bind_eq_ok_iff.mpr ⟨false, v ++ rest, accept_other ?_, hb'⟩⟩
  intro t ht heq
  apply hnext _ hrest
  rw [← hv, ← nextLexeme?_append, nextLexeme?, ht, Option.map_some, heq]

theorem bind_require {s : Symbol} {kind : SyntaxError.Kind} {f : Unit → Parser β}
    (h : ReadsBack S Q (f ()) b ls) : ReadsBack S Q (require s kind >>= f) b (.symbol s :: ls) := by
  intro v rest hv hrest
  obtain ⟨p, w, rfl, hw⟩ := lexemes_eq_cons hv
  obtain ⟨b', hbb', hb'⟩ := h hw hrest
  exact ⟨b', hbb', bind_eq_ok_iff.mpr ⟨(), w ++ rest, require_symbol s kind p _, hb'⟩⟩

theorem shift {l : Lexeme} {f : Position → Parser α} (h : ∀ p, ReadsBack S R (f p) a ls) :
    ReadsBack S R (shift f) a (l :: ls) := by
  intro v rest hv hrest
  obtain ⟨p, w, rfl, hw⟩ := lexemes_eq_cons hv
  exact h p hw hrest

end ReadsBack

/-! ## Lists in parentheses -/

section

variable {R : α → α → Prop} {item : Parser α} {W : α → List Lexeme} {S : Option Lexeme → Prop}

/-- Items that are read back before a comma and before the end of the list. -/
def ItemsReadBack (R : α → α → Prop) (item : Parser α) (W : α → List Lexeme) (as : List α) : Prop :=
  ∀ a ∈ as, ReadsBack SeparatesAt R item a (W a)

theorem separated_readsBack (hcuts : Cuts item) {a : α} {as : List α}
    (h : ItemsReadBack R item W (a :: as)) :
    ReadsBack (· = some (.symbol .closeParen)) (List.Forall₂ R) (separated item) (a :: as)
      (commaSeparated ((a :: as).map W)) := by
  have hfirst := h a List.mem_cons_self
  induction as generalizing a with
  | nil =>
      have hlast : commaSeparated ([a].map W) = W a ++ [] := (List.append_nil _).symm
      rw [separated_eq hcuts, hlast]
      refine .bind hfirst (fun _ hnext => ⟨.closeParen, by simp, hnext⟩) fun a' haa' => ?_
      refine .bind_accept_other ?_ (.pure (.cons haa' .nil))
      rintro _ rfl ⟨⟩
  | cons b as ih =>
      have hothers : ItemsReadBack R item W (b :: as) := fun c hc => h c (List.mem_cons_of_mem a hc)
      rw [separated_eq hcuts, List.map_cons, commaSeparated_cons (by simp)]
      refine .bind hfirst (fun _ _ => ⟨.comma, by simp, rfl⟩) fun a' haa' => .bind_accept ?_
      exact (ih hothers (hothers b List.mem_cons_self)).map fun _ hshape => .cons haa' hshape

theorem listed_readsBack (hcuts : Cuts item) {as : List α} (h : ItemsReadBack R item W as)
    (hopens : ∀ a ∈ as, ∃ l ls, W a = l :: ls ∧ l ≠ .symbol .closeParen) (kind : SyntaxError.Kind) :
    ReadsBack S (List.Forall₂ R) (listed item kind) as
      (commaSeparated (as.map W) ++ [.symbol .closeParen]) := by
  cases as with
  | nil => exact .bind_accept (.pure .nil)
  | cons a as =>
      refine .bind_accept_other ?_ ?_
      · obtain ⟨l, ls, hl, hne⟩ := hopens a List.mem_cons_self
        intro next _ heq
        cases as with
        | nil =>
            rw [List.map_singleton, commaSeparated, hl] at heq
            exact hne (Option.some.inj heq)
        | cons b as =>
            rw [List.map_cons, commaSeparated_cons (by simp), hl] at heq
            exact hne (Option.some.inj heq)
      · refine .bind (separated_readsBack hcuts h) (fun _ _ => rfl) ?_
        exact fun as' has' => .bind_require (.pure has')

end

/-! ## Patterns -/

section

variable {σ : Type} {F : σ → Option Lexeme → Prop} {S : Option Lexeme → Prop}
  {W : Node → List Lexeme} {readers : σ → Parser Node} {P : σ → Node → Prop}

def Item.Parts (P : σ → Node → Prop) : (item : Item σ) → item.Result → Prop
  | .tree role, n => P role n
  | .name _, _ => True

/-- `P` holds of all trees that were read along the pattern, in their roles. -/
def Pattern.Parts (P : σ → Node → Prop) : (pattern : Pattern σ) → pattern.Result → Prop
  | .done, _ => True
  | .read item next, (a, r) => item.Parts P a ∧ next.Parts P r
  | .list item _ next, (as, r) => (∀ a ∈ as, item.Parts P a) ∧ next.Parts P r
  | .require _ _ next, r => next.Parts P r
  | .branch _ yes _, .inl r => yes.Parts P r
  | .branch _ _ no, .inr r => no.Parts P r

/-- Where these trees are written, each one has behind it what may stand there, and where the next
symbol decides it decides rightly. -/
def Pattern.Guarded (F : σ → Option Lexeme → Prop) (S : Option Lexeme → Prop)
    (W : Node → List Lexeme) : (pattern : Pattern σ) → pattern.Result → Prop
  | .done, _ => True
  | .read item next, (_, r) =>
      (∀ l, S l → item.Followed F ((next.written W r).head?.or l)) ∧ next.Guarded F S W r
  | .list item _ next, (as, r) =>
      (∀ a ∈ as, (∀ l, SeparatesAt l → item.Followed F l) ∧
        ∃ l ls, item.written W a = l :: ls ∧ l ≠ .symbol .closeParen) ∧ next.Guarded F S W r
  | .require _ _ next, r => next.Guarded F S W r
  | .branch _ yes _, .inl r => yes.Guarded F S W r
  | .branch s _ no, .inr r =>
      (∀ l, S l → (no.written W r).head?.or l ≠ some (.symbol s)) ∧ no.Guarded F S W r

theorem Pattern.written_opens {pattern : Pattern σ} (r : pattern.Result) {l : Option Lexeme}
    (hl : S l) : pattern.Opens S ((pattern.written W r).head?.or l) := by
  induction pattern with
  | done => exact hl
  | read | list => trivial
  | require => rfl
  | branch s yes no _ ih =>
      cases r with
      | inl r => exact .inl rfl
      | inr r => exact .inr (ih r)

theorem Pattern.Fits.guarded {pattern : Pattern σ} (fits : pattern.Fits F S)
    (hlists : ∀ role, ¬ F role (some (.symbol .closeParen))) (r : pattern.Result) :
    pattern.Guarded F S W r := by
  induction pattern with
  | done => trivial
  | read item next ih => exact ⟨fun l hl => fits.1 _ (next.written_opens r.2 hl), ih fits.2 r.2⟩
  | list item kind next ih =>
      refine ⟨fun a _ => ?_, ih fits.2 r.2⟩
      cases item with
      | tree role => exact absurd (fits.1 .closeParen (by simp)) (hlists role)
      | name => exact ⟨fun _ _ => trivial, _, [], rfl, by simp⟩
  | require s kind next ih => exact ih fits r
  | branch s yes no ihyes ihno =>
      cases r with
      | inl r => exact ihyes fits.2.1 r
      | inr r => exact ⟨fun l hl => fits.1 _ (no.written_opens r hl), ihno fits.2.2 r⟩

/-- What the readers have read are the parts. -/
theorem Pattern.Spells.parts {T : σ → Node → List Token → List Token → Prop}
    (hT : ∀ {role n w rest}, T role n w rest → P role n) {pattern : Pattern σ} {r : pattern.Result}
    {w rest : List Token} (h : pattern.Spells T r w rest) : pattern.Parts P r := by
  have hitem {item : Item σ} {a : item.Result} {w rest : List Token}
      (h : item.Spells T a w rest) : item.Parts P a := by
    cases item with
    | tree role => exact hT h
    | name => trivial
  induction pattern generalizing w with
  | done => trivial
  | read item next ih =>
      obtain ⟨u, v, rfl, hu, hv⟩ := h
      exact ⟨hitem hu, ih hv⟩
  | list item kind next ih =>
      obtain ⟨u, p, v, rfl, hu, hv⟩ := h
      refine ⟨?_, ih hv⟩
      rcases hu with ⟨has, -⟩ | hlisted
      · simp [has]
      · exact hlisted.forall_of fun ⟨_, ha⟩ => hitem ha
  | require s kind next ih =>
      obtain ⟨p, v, rfl, hv⟩ := h
      exact ih hv
  | branch s yes no ihyes ihno =>
      cases r with
      | inl r =>
          obtain ⟨p, v, rfl, hv⟩ := h
          exact ihyes hv
      | inr r => exact ihno h

/-- The parts are trees that the readers read back. -/
abbrev Pattern.PartsReadBack (F : σ → Option Lexeme → Prop) (readers : σ → Parser Node)
    (W : Node → List Lexeme) (pattern : Pattern σ) : pattern.Result → Prop :=
  pattern.Parts fun role n => ReadsBack (F role) SameShape (readers role) n (W n)

theorem Item.readsBack {item : Item σ} {a : item.Result}
    (h : item.Parts (fun role n => ReadsBack (F role) SameShape (readers role) n (W n)) a) :
    ReadsBack (fun l => item.Followed F l) item.Same (item.parser readers) a
      (item.written W a) := by
  cases item with
  | tree role => exact h
  | name kind =>
      intro v rest hv _
      obtain ⟨p, w, rfl, hw⟩ := lexemes_eq_cons hv
      rw [lexemes_eq_nil hw]
      exact ⟨a, rfl, rfl⟩

variable (hcuts : ∀ role, Cuts (readers role))

include hcuts

theorem Pattern.readsBack {pattern : Pattern σ} {r : pattern.Result}
    (guarded : pattern.Guarded F S W r) (h : pattern.PartsReadBack F readers W r) :
    ReadsBack S pattern.Same (pattern.parser readers) r (pattern.written W r) := by
  induction pattern with
  | done => exact .pure trivial
  | read item next ih =>
      refine .bind (Item.readsBack h.1) guarded.1 fun a' haa' => ?_
      exact (ih guarded.2 h.2).map fun r' hrr' => ⟨haa', hrr'⟩
  | list item kind next ih =>
      have hitems : ItemsReadBack item.Same (item.parser readers) (item.written W) r.1 :=
        fun a ha => (Item.readsBack (h.1 a ha)).mono (guarded.1 a ha).1
      have hlisted : ReadsBack (fun _ => True) _ _ _ _ :=
        listed_readsBack (item.cuts hcuts) hitems (fun a ha => (guarded.1 a ha).2) kind
      have hwritten : (Pattern.list item kind next).written W r =
          (commaSeparated (r.1.map (item.written W)) ++ [.symbol .closeParen]) ++
            next.written W r.2 := by
        simp [Pattern.written]
      rw [hwritten]
      refine .bind hlisted (fun _ _ => trivial) fun as' has' => ?_
      exact (ih guarded.2 h.2).map fun r' hrr' => ⟨has', hrr'⟩
  | require s kind next ih => exact .bind_require (ih guarded h)
  | branch s yes no ihyes ihno =>
      cases r with
      | inl r => exact .bind_accept ((ihyes guarded h).map fun _ hrr' => hrr')
      | inr r =>
          exact .bind_accept_other guarded.1 ((ihno guarded.2 h).map fun _ hrr' => hrr')

/-- The node may stand elsewhere. -/
theorem Form.readsBack {form : Form σ} (uniform : form.Uniform) {r : form.pattern.Result}
    (guarded : form.pattern.Guarded F S W r) (h : form.pattern.PartsReadBack F readers W r)
    {n : Node} {q : Position} (hn : SameShape n (form.build r q)) (p : Position) :
    ReadsBack S SameShape (form.parser readers p) n (form.pattern.written W r) :=
  (Pattern.readsBack hcuts guarded h).map fun _ hrr' => hn.trans (uniform hrr' q p)

end

/-! ## Statements -/

section

variable {expr inner : Parser Node} {n : Node} {ls : List Lexeme}

theorem body_readsBack {sequence : Parser (List Node)} {xs : List Node}
    (h : ReadsBack ClosesAt SameShapes sequence xs ls) (p : Option Position) :
    ReadsBack ClosesAt SameShape (body sequence) (.block xs p) ls := by
  intro v rest hv hrest
  obtain ⟨xs', hxs', hread⟩ := h hv hrest
  refine ⟨.block xs' ((v ++ rest).head?.map (·.position)), .block hxs', ?_⟩
  unfold body
  rw [hread]

/-! ## Sequences of statements -/

/-- A statement whose first lexeme leads the parser to it, and which it then reads back. -/
def ReadsStatement (after : Parser (List Node) → Parser Node → Parser (List Node))
    (S : Option Lexeme → Prop) (expr inner : Parser Node) (n : Node) (ls : List Lexeme) : Prop :=
  ∃ l q, ls.head? = some l ∧ ReadsBack S SameShape q n ls ∧
    ∀ more, statementsBy expr inner more (some l) = after more q

abbrev ReadsControl : Parser Node → Parser Node → Node → List Lexeme → Prop :=
  ReadsStatement afterControl fun _ => True

abbrev ReadsSimple : Parser Node → Parser Node → Node → List Lexeme → Prop :=
  ReadsStatement afterSimple StopsAt

theorem shift_afterControl (more : Parser (List Node)) (f : Position → Parser Node) :
    (shift fun p => afterControl more (f p)) = afterControl more (shift f) := by
  funext tokens
  cases tokens <;> rfl

theorem shift_afterSimple (more : Parser (List Node)) (f : Position → Parser Node) :
    (shift fun p => afterSimple more (f p)) = afterSimple more (shift f) := by
  funext tokens
  cases tokens <;> rfl

theorem readsSimple_expression {l : Lexeme} (hn : ReadsBack StopsAt SameShape expr n ls)
    (hl : ls.head? = some l) (hstart : start (some l) = .expression) :
    ReadsSimple expr inner n ls :=
  ⟨l, expr, hl, hn, fun _ => statementsBy_expression hstart⟩

section

variable (hexpr : Cuts expr) (hinner : Cuts inner) {l : Lexeme} {form : Form Clause}
  {r : form.pattern.Result} {W : Node → List Lexeme}
  (hr : form.pattern.PartsReadBack Clause.follow (clauseReaders expr inner) W r) {q : Position}
  (hn : SameShape n (form.build r q))

include hexpr hinner hr hn

theorem readsControl_form (hform : start (some l) = .control form) :
    ReadsControl expr inner n (l :: form.pattern.written W r) := by
  have guarded := (fits_control hform).guarded (W := W) Clause.not_follow_closeParen r
  refine ⟨l, shift (form.parser (clauseReaders expr inner)), rfl, .shift ?_, fun more => ?_⟩
  · exact Form.readsBack (cuts_clause hexpr hinner) (uniform_control hform) guarded hr hn
  · rw [statementsBy_control hform, shift_afterControl]

theorem readsSimple_form (hform : start (some l) = .simple form) :
    ReadsSimple expr inner n (l :: form.pattern.written W r) := by
  have guarded := (fits_simple hform).guarded (W := W) Clause.not_follow_closeParen r
  refine ⟨l, shift (form.parser (clauseReaders expr inner)), rfl, .shift ?_, fun more => ?_⟩
  · exact Form.readsBack (cuts_clause hexpr hinner) (uniform_simple hform) guarded hr hn
  · rw [statementsBy_simple hform, shift_afterSimple]

end

theorem statements_readsBack_nil :
    ReadsBack ClosesAt SameShapes (statementsWith expr inner) [] [] := by
  intro v rest hv hrest
  refine ⟨[], rfl, ?_⟩
  rw [lexemes_eq_nil hv, List.nil_append]
  exact statementsFrom_closes hrest rest

section

variable {xs : List Node} {ln : List Lexeme} (hexpr : Cuts expr) (hinner : Cuts inner)

include hexpr hinner

/-- The first lexeme decides what the sequence begins with. -/
theorem statements_readsBack_of_by {l : Lexeme} (hl : ls.head? = some l)
    (h : ReadsBack ClosesAt SameShapes
      (statementsBy expr inner (statementsWith expr inner) (some l)) xs ls) :
    ReadsBack ClosesAt SameShapes (statementsWith expr inner) xs ls := by
  intro v rest hv hrest
  have hnext : nextLexeme? (v ++ rest) = some l := by
    rw [nextLexeme?_append, hv, hl, Option.some_or]
  rw [statementsWith_eq hexpr hinner, hnext]
  exact h hv hrest

theorem ReadsControl.cons (hn : ReadsControl expr inner n ln)
    (hmore : ReadsBack ClosesAt SameShapes (statementsWith expr inner) xs ls)
    (hls : ls.head? ≠ some (.symbol .comma)) :
    ReadsBack ClosesAt SameShapes (statementsWith expr inner) (n :: xs) (ln ++ ls) := by
  obtain ⟨l, q, hl, hq, hby⟩ := hn
  refine statements_readsBack_of_by hexpr hinner (by rw [List.head?_append, hl, Option.some_or]) ?_
  rw [hby]
  refine .bind hq (fun _ _ => trivial) fun n' hnn' => .bind_accept_other ?_ ?_
  · intro next hnext heq
    cases ls with
    | nil => exact hnext.next_ne (by decide) heq
    | cons l' ls => exact hls heq
  · exact hmore.map fun _ hshape => .cons hnn' hshape

theorem ReadsControl.cons_comma (hn : ReadsControl expr inner n ln)
    (hmore : ReadsBack ClosesAt SameShapes (statementsWith expr inner) xs ls) :
    ReadsBack ClosesAt SameShapes (statementsWith expr inner) (n :: xs)
      (ln ++ .symbol .comma :: ls) := by
  obtain ⟨l, q, hl, hq, hby⟩ := hn
  refine statements_readsBack_of_by hexpr hinner (by rw [List.head?_append, hl, Option.some_or]) ?_
  rw [hby]
  refine .bind hq (fun _ _ => trivial) fun n' hnn' => .bind_accept ?_
  exact hmore.map fun _ hshape => .cons hnn' hshape

theorem ReadsSimple.last (hn : ReadsSimple expr inner n ln) :
    ReadsBack ClosesAt SameShapes (statementsWith expr inner) [n] ln := by
  obtain ⟨l, q, hl, hq, hby⟩ := hn
  refine statements_readsBack_of_by hexpr hinner hl ?_
  rw [hby, ← List.append_nil ln]
  refine .bind hq (fun _ hnext => hnext.mono (by decide)) fun n' hnn' => .bind_accept_other ?_ ?_
  · exact fun _ hnext => hnext.next_ne (by decide)
  · exact .pure (.cons hnn' rfl)

theorem ReadsSimple.cons (hn : ReadsSimple expr inner n ln)
    (hmore : ReadsBack ClosesAt SameShapes (statementsWith expr inner) xs ls) :
    ReadsBack ClosesAt SameShapes (statementsWith expr inner) (n :: xs)
      (ln ++ .symbol .comma :: ls) := by
  obtain ⟨l, q, hl, hq, hby⟩ := hn
  refine statements_readsBack_of_by hexpr hinner (by rw [List.head?_append, hl, Option.some_or]) ?_
  rw [hby]
  refine .bind hq (fun _ _ => amongSymbols_some (by decide)) fun n' hnn' => .bind_accept ?_
  exact hmore.map fun _ hshape => .cons hnn' hshape

end

end

/-- A program is read back if its statements are. -/
theorem root_reads {depth : Nat} {xs : List Node} {v : List Token}
    (h : ReadsBack ClosesAt SameShapes (statements depth) xs (lexemes v)) (p : Option Position) :
    ∃ tree, root depth v = .ok (tree, []) ∧ SameShape (.root xs p) tree := by
  have hclosed : ClosesAt (nextLexeme? []) := fun _ hl => nomatch hl
  obtain ⟨xs', hshape, hread⟩ := h rfl hclosed
  rw [List.append_nil] at hread
  refine ⟨.root xs' (xs'.head?.bind Node.position), ?_, .root hshape⟩
  unfold root
  rw [hread]

end Scriptlet.Parser
