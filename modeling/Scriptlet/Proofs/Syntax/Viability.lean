import Scriptlet.Proofs.Syntax.Unrolling

/-!
# The tokens before an error

The parser rejects a token only where another one could have stood: what it has taken until then
can always be completed. So the tokens before an error begin a derivable source.
-/

namespace Scriptlet.Parser

variable {α β : Type}

/-- The tokens that a beginning is completed with. -/
inductive Filler where
  | symbol (s : Symbol)
  | name

def Filler.token : Filler → Token
  | .symbol s => ⟨.symbol s, .start⟩
  | .name => ⟨.identifier "x", .start⟩

@[simp] theorem Filler.token_symbol (s : Symbol) : (symbol s).token = ⟨.symbol s, .start⟩ := rfl

/-- The tokens `w` can be completed so that `L` holds. -/
def Begins (L : List Token → Prop) (w : List Token) : Prop :=
  ∃ more : List Filler, L (w ++ more.map Filler.token)

/-- Where the parser rejects a token, the tokens `u` before its start and those it has taken since
then can be completed. It does not speak of strings: they are the scan's. -/
def Viable (L : List Token → Prop) (u : List Token) (p : Parser α) : Prop :=
  ∀ ⦃tokens kind rest⦄, p tokens = .error (.rejected kind rest) →
    kind ≠ .unterminatedString ∧ ∃ w, tokens = w ++ rest ∧ Begins L (u ++ w)

section

variable {L L' : List Token → Prop} {R : α → List Token → Prop} {u v : List Token} {p : Parser α}

theorem Begins.of_append (more : List Filler) (h : Begins L (u ++ more.map Filler.token)) :
    Begins L u := by
  obtain ⟨last, hlast⟩ := h
  refine ⟨more ++ last, ?_⟩
  rwa [List.map_append, ← List.append_assoc]

theorem Begins.imp (h : Begins L u) (hL : ∀ w, L (u ++ w) → Begins L' (v ++ w)) : Begins L' v := by
  obtain ⟨more, hmore⟩ := h
  exact .of_append more (hL _ hmore)

/-- A beginning of a part is a beginning of the whole. -/
theorem Viable.imp (h : Viable L u p) (hL : ∀ w, L (u ++ w) → Begins L' (v ++ w)) :
    Viable L' v p := by
  intro tokens kind rest hp
  obtain ⟨hkind, w, hw, hbegins⟩ := h hp
  refine ⟨hkind, w, hw, hbegins.imp fun x hx => ?_⟩
  rw [List.append_assoc] at hx ⊢
  exact hL _ hx

theorem Viable.bind {f : α → Parser β} (hreads : Reads R p) (first : Viable L u p)
    (second : ∀ {a w}, R a w → Viable L (u ++ w) (f a)) : Viable L u (p >>= f) := by
  intro tokens kind rest h
  rcases bind_eq_rejected_iff.mp h with hp | ⟨a, middle, hp, hf⟩
  · exact first hp
  · obtain ⟨w, rfl, hw⟩ := hreads hp
    obtain ⟨hkind, x, rfl, hx⟩ := second hw hf
    refine ⟨hkind, w ++ x, (List.append_assoc w x rest).symm, ?_⟩
    rwa [← List.append_assoc]

theorem Viable.pure (a : α) : Viable L u (Pure.pure a : Parser α) := by
  intro tokens kind rest hp
  cases hp

theorem Viable.tooDeep : Viable L u (tooDeep : Parser α) := by
  intro tokens kind rest hp
  cases hp

theorem Viable.reject {kind : SyntaxError.Kind} (h : Begins L u)
    (hkind : kind ≠ .unterminatedString := by decide) : Viable L u (reject kind : Parser α) := by
  intro tokens kind' rest hp
  cases hp
  exact ⟨hkind, [], rfl, by rwa [List.append_nil]⟩

/-- A token was taken before the parser began. -/
theorem Viable.cons {t : Token} (h : Viable L (u ++ [t]) p) {tokens rest : List Token}
    {kind : SyntaxError.Kind} (hp : p tokens = .error (.rejected kind rest)) :
    kind ≠ .unterminatedString ∧ ∃ w, t :: tokens = w ++ rest ∧ Begins L (u ++ w) := by
  obtain ⟨hkind, w, rfl, hw⟩ := h hp
  refine ⟨hkind, t :: w, rfl, ?_⟩
  rwa [List.append_assoc, List.singleton_append] at hw

/-! ## Single tokens -/

theorem Viable.bind_acceptAny {symbols : List Symbol} {f : Option Symbol → Parser α}
    (some : ∀ s ∈ symbols, ∀ p, Viable L (u ++ [⟨.symbol s, p⟩]) (f (some s)))
    (none : Viable L u (f none)) : Viable L u (acceptAny symbols >>= f) := by
  have hreads : Reads (fun found w => (found = .none ∧ w = []) ∨
      ∃ s ∈ symbols, found = .some s ∧ ∃ p, w = [⟨.symbol s, p⟩]) (acceptAny symbols) := by
    intro tokens found rest h
    cases found with
    | none => exact ⟨[], acceptAny_eq_none h, .inl ⟨rfl, rfl⟩⟩
    | some s =>
        obtain ⟨hs, p, rfl⟩ := acceptAny_eq_some h
        exact ⟨[⟨.symbol s, p⟩], rfl, .inr ⟨s, hs, rfl, p, rfl⟩⟩
  refine .bind hreads ?_ ?_
  · intro tokens kind rest h
    unfold acceptAny at h
    split at h
    · split at h
      · cases h
      · cases h
    · cases h
  · rintro found w (⟨rfl, rfl⟩ | ⟨s, hs, rfl, p, rfl⟩)
    · rwa [List.append_nil]
    · exact some s hs p

theorem Viable.bind_accept {s : Symbol} {f : Bool → Parser α}
    (yes : ∀ p, Viable L (u ++ [⟨.symbol s, p⟩]) (f true)) (no : Viable L u (f false)) :
    Viable L u (accept s >>= f) := by
  have hassoc : accept s >>= f = acceptAny [s] >>= fun found => f found.isSome := by
    funext tokens
    change Parser.bind (Parser.bind (acceptAny [s]) _) f tokens =
      Parser.bind (acceptAny [s]) _ tokens
    unfold Parser.bind
    cases acceptAny [s] tokens <;> rfl
  rw [hassoc]
  refine .bind_acceptAny ?_ no
  intro s' hs' p
  rw [List.mem_singleton.mp hs']
  exact yes p

theorem Viable.bind_require {s : Symbol} {kind : SyntaxError.Kind} {f : Unit → Parser α}
    (here : Begins L u) (later : ∀ p, Viable L (u ++ [⟨.symbol s, p⟩]) (f ()))
    (hkind : kind ≠ .unterminatedString := by decide) : Viable L u (require s kind >>= f) := by
  have hrequire : Viable L u (require s kind) :=
    .bind_accept (fun _ => .pure _) (.reject here hkind)
  have hreads : Reads (fun _ w => ∃ p, w = [⟨.symbol s, p⟩]) (require s kind) := by
    intro tokens a rest h
    obtain ⟨p, rfl⟩ := require_eq_ok h
    exact ⟨[⟨.symbol s, p⟩], rfl, p, rfl⟩
  refine .bind hreads hrequire ?_
  rintro a w ⟨p, rfl⟩
  exact later p

theorem viable_requireName {kind : SyntaxError.Kind} (h : Begins L u)
    (hkind : kind ≠ .unterminatedString := by decide) : Viable L u (requireName kind) := by
  intro tokens kind' rest hp
  unfold requireName at hp
  split at hp
  · cases hp
  · exact Viable.reject h hkind hp

theorem Viable.bind_pure (h : Viable L u p) (f : α → β) :
    Viable L u (p >>= fun a => Pure.pure (f a)) := by
  intro tokens kind rest hp
  rcases bind_eq_rejected_iff.mp hp with hp | ⟨a, middle, -, hpure⟩
  · exact h hp
  · cases hpure

/-! ## Items with commas between them -/

section

variable {K : List Token → Prop} {item : Parser α} (hreads : Reads (fun _ w => K w) item)
  (hitem : Viable K [] item)

include hreads hitem

theorem viable_separatedFrom (rounds : List Token)
    (hlisted : ∀ (items : List Unit) w, Listed (fun _ => K) items w → Begins L (u ++ w)) :
    Viable L u (separatedFrom item rounds) := by
  have hfirst {u : List Token}
      (hlisted : ∀ (items : List Unit) w, Listed (fun _ => K) items w → Begins L (u ++ w)) :
      Viable L u item :=
    hitem.imp fun w hw => hlisted [()] w (.one hw)
  induction rounds generalizing u with
  | nil => exact (hfirst hlisted).bind_pure _
  | cons round rounds ih =>
      refine .bind hreads (hfirst hlisted) fun {a w} ha => .bind_accept (fun p => ?_) (.pure _)
      refine (ih fun items v hv => ?_).bind_pure _
      have hbegins := hlisted (() :: items) _ (.more (p := p) ha hv)
      simpa using hbegins

theorem viable_listed {kind : SyntaxError.Kind}
    (hlisted : ∀ (items : List Unit) w, ListedOrNone (fun _ => K) items w → Begins L (u ++ w))
    (hkind : kind ≠ .unterminatedString) : Viable L u (listed item kind) := by
  have hseparated : Viable L u (separated item) := fun tokens _ _ h =>
    viable_separatedFrom hreads hitem tokens (fun items w hw => hlisted items w (.inr hw)) h
  have hreads' : Reads (Listed fun _ => K) (separated item) := fun h => hreads.separatedFrom _ h
  refine .bind_accept (fun _ => .pure _) (.bind hreads' hseparated fun {as w} hw => ?_)
  obtain ⟨items, hitems⟩ : ∃ items : List Unit, ListedOrNone (fun _ => K) items w :=
    ListedOrNone.exists_items (.inr hw) fun h => ⟨(), h⟩
  exact .bind_require (hlisted items w hitems) (fun _ => .pure _) hkind

end

end

/-! ## Patterns -/

section

variable {σ : Type} {L : σ → List Token → Prop} {readers : σ → Parser Node}

section

variable (hbegins : ∀ role, Begins (L role) [])

include hbegins

theorem Item.begins_accepts (item : Item σ) : Begins (item.Accepts L) [] := by
  cases item with
  | tree role => exact hbegins role
  | name => exact ⟨[.name], "x", .start, rfl⟩

/-- Every pattern can be filled. -/
theorem Pattern.begins_accepts (pattern : Pattern σ) : Begins (pattern.Accepts L) [] := by
  induction pattern with
  | done => exact ⟨[], rfl⟩
  | read item next ih =>
      obtain ⟨first, hfirst⟩ := item.begins_accepts hbegins
      obtain ⟨more, hmore⟩ := ih
      exact ⟨first ++ more, _, _, List.map_append, hfirst, hmore⟩
  | list item kind next ih =>
      obtain ⟨more, hmore⟩ := ih
      exact ⟨.symbol .closeParen :: more, [], .start, _, rfl, ⟨[], .inl ⟨rfl, rfl⟩⟩, hmore⟩
  | require s kind next ih =>
      obtain ⟨more, hmore⟩ := ih
      exact ⟨.symbol s :: more, .start, _, rfl, hmore⟩
  | branch s yes no _ ih =>
      obtain ⟨more, hmore⟩ := ih
      exact ⟨more, .inr hmore⟩

end

variable (hreads : ∀ role, Reads (fun _ w => L role w) (readers role))

include hreads

theorem Item.reads_accepts (item : Item σ) :
    Reads (fun _ w => item.Accepts L w) (item.parser readers) := by
  cases item with
  | tree role => exact hreads role
  | name kind =>
      intro tokens spelled rest h
      obtain ⟨w, hw, hspells⟩ := reads_requireName kind h
      exact ⟨w, hw, spelled, hspells⟩

variable (hbegins : ∀ role, Begins (L role) [])
  (hviable : ∀ role, Viable (L role) [] (readers role))

include hbegins hviable

omit hreads in
theorem Item.viable (item : Item σ) (hkinds : ∀ kind ∈ item.kinds, kind ≠ .unterminatedString) :
    Viable (item.Accepts L) [] (item.parser readers) := by
  cases item with
  | tree role => exact hviable role
  | name kind =>
      exact viable_requireName ((Item.name kind).begins_accepts hbegins)
        (hkinds kind (by simp [Item.kinds]))

/-- If all that the pattern accepts begins `M`, so does what is taken before a rejected token. -/
theorem Pattern.viable (pattern : Pattern σ)
    (hkinds : ∀ kind ∈ pattern.kinds, kind ≠ .unterminatedString) {M : List Token → Prop}
    {u : List Token} (hM : ∀ w, pattern.Accepts L w → Begins M (u ++ w)) :
    Viable M u (pattern.parser readers) := by
  have here (pattern : Pattern σ) {u : List Token}
      (hM : ∀ w, pattern.Accepts L w → Begins M (u ++ w)) : Begins M u := by
    obtain ⟨more, hmore⟩ := pattern.begins_accepts hbegins
    exact .of_append more (hM _ hmore)
  induction pattern generalizing u with
  | done => exact .pure ()
  | read item next ih =>
      obtain ⟨hkind, hkinds⟩ := List.forall_mem_append.mp hkinds
      have hnext {w : List Token} (hw : item.Accepts L w) :
          ∀ v, next.Accepts L v → Begins M (u ++ w ++ v) := by
        intro v hv
        rw [List.append_assoc]
        exact hM (w ++ v) ⟨w, v, rfl, hw, hv⟩
      refine .bind (item.reads_accepts hreads) ?_ fun hw => (ih hkinds (hnext hw)).bind_pure _
      exact (item.viable hbegins hviable hkind).imp fun w hw => here next (hnext hw)
  | list item kind next ih =>
      obtain ⟨hitem, hkinds⟩ := List.forall_mem_append.mp hkinds
      obtain ⟨hkind, hkinds⟩ := List.forall_mem_cons.mp hkinds
      have hnext {items : List Unit} {x : List Token} {p : Position}
          (hx : ListedOrNone (fun _ => item.Accepts L) items x) :
          ∀ v, next.Accepts L v → Begins M (u ++ (x ++ [⟨.symbol .closeParen, p⟩]) ++ v) := by
        intro v hv
        have hbegins := hM _ ⟨x, p, v, rfl, ⟨items, hx⟩, hv⟩
        simpa using hbegins
      have hlisted : Viable M u (Parser.listed (item.parser readers) kind) := by
        refine viable_listed (item.reads_accepts hreads) (item.viable hbegins hviable hitem)
          ?_ hkind
        intro items x hx
        refine .of_append [.symbol .closeParen] ?_
        have hbegins := here next (hnext (p := .start) hx)
        simpa using hbegins
      refine .bind (Reads.listed (item.reads_accepts hreads) kind) hlisted ?_
      rintro as _ ⟨x, p, rfl, hx⟩
      obtain ⟨items, hitems⟩ : ∃ items : List Unit,
          ListedOrNone (fun _ => item.Accepts L) items x :=
        hx.exists_items fun h => ⟨(), h⟩
      exact (ih hkinds (hnext hitems)).bind_pure _
  | require s kind next ih =>
      obtain ⟨hkind, hkinds⟩ := List.forall_mem_cons.mp hkinds
      refine .bind_require (here _ hM) (fun p => ih hkinds fun v hv => ?_) hkind
      rw [List.append_assoc]
      exact hM _ ⟨p, v, rfl, hv⟩
  | branch s yes no ihyes ihno =>
      obtain ⟨hyes, hno⟩ := List.forall_mem_append.mp hkinds
      refine .bind_accept (fun p => ?_) ((ihno hno fun w hw => hM w (.inr hw)).bind_pure _)
      refine (ihyes hyes fun v hv => ?_).bind_pure _
      rw [List.append_assoc]
      exact hM _ (.inl ⟨p, v, rfl, hv⟩)

theorem Form.viable (form : Form σ) (hkinds : ∀ kind ∈ form.pattern.kinds, ParserKind kind)
    {M : List Token → Prop} {u : List Token}
    (hM : ∀ w, form.pattern.Accepts L w → Begins M (u ++ w)) (p : Position) :
    Viable M u (form.parser readers p) := by
  refine (form.pattern.viable hreads hbegins hviable (fun kind hkind => ?_) hM).bind_pure _
  exact (hkinds kind hkind).ne_unterminatedString

end

/-! ## Expressions -/

/-- Tokens that spell a single tree. -/
def Word (part : Part) (w : List Token) : Prop := ∃ n, Spells part [n] w

theorem word_nil (ls : List Level) (p : Position) :
    Word (.expression ls) [⟨.symbol .nil, p⟩] := by
  refine ⟨.nil p, ?_⟩
  induction ls with
  | nil => exact .nil p
  | cons level tighter ih => exact .single ih

section

variable {level : Level} {tighter : List Level} {op inner : Parser Node}

theorem viable_chainFrom (hrepeats : level.repeats = true)
    (hreads : ReadsPart (.expression tighter) op)
    (hop : Viable (Word (.expression tighter)) [] op) (rounds : List Token) {left : Node}
    {u : List Token} (hleft : Spells (.expression (level :: tighter)) [left] u) :
    Viable (Word (.expression (level :: tighter))) u
      (chainFrom level.operators op rounds left) := by
  induction rounds generalizing left u with
  | nil => exact .pure left
  | cons round rounds ih =>
      refine .bind_acceptAny (fun s hs p => ?_) (.pure left)
      have hjoin : ∀ {right v}, Spells (.expression tighter) [right] v →
          Spells (.expression (level :: tighter))
            [.binary (.symbol s) left right left.position] (u ++ [⟨.symbol s, p⟩] ++ v) := by
        intro right v hv
        rw [List.append_assoc, List.singleton_append]
        exact .joined p hs (by rwa [if_pos hrepeats]) hv
      refine .bind hreads (hop.imp ?_) fun hright => ih (hjoin hright)
      rintro v ⟨right, hv⟩
      exact ⟨[], _, by simpa using hjoin hv⟩

theorem viable_chainFrom_one (hrepeats : level.repeats = false)
    (hreads : ReadsPart (.expression tighter) op)
    (hop : Viable (Word (.expression tighter)) [] op) {rounds : List Token}
    (hrounds : rounds.length ≤ 1) {left : Node} {u : List Token}
    (hleft : Spells (.expression tighter) [left] u) :
    Viable (Word (.expression (level :: tighter))) u
      (chainFrom level.operators op rounds left) := by
  cases rounds with
  | nil => exact .pure left
  | cons round rounds =>
      obtain rfl : rounds = [] := by
        simpa using hrounds
      refine .bind_acceptAny (fun s hs p => ?_) (.pure left)
      refine .bind hreads (hop.imp ?_) fun hright => .pure _
      rintro v ⟨right, hv⟩
      refine ⟨[], .binary (.symbol s) left right left.position, ?_⟩
      rw [List.map_nil, List.append_nil, List.append_assoc, List.singleton_append]
      exact .joined p hs (by rwa [if_neg (by simp [hrepeats])]) hv

theorem viable_climb (hreads : ReadsPart (.expression []) op)
    (hop : Viable (Word (.expression [])) [] op) (ls : List Level) :
    Viable (Word (.expression ls)) [] (climb op ls) := by
  induction ls with
  | nil => exact hop
  | cons level tighter ih =>
      refine .bind (reads_climb hreads tighter) (ih.imp ?_) fun {left w} hleft => ?_
      · rintro w ⟨n, hn⟩
        exact ⟨[], n, by simpa using Spells.single hn⟩
      · intro tokens kind rest h
        cases hrepeats : level.repeats with
        | true =>
            rw [chain_of_repeats hrepeats] at h
            exact viable_chainFrom hrepeats (reads_climb hreads tighter) ih _ (.single hleft) h
        | false =>
            rw [chain_of_lone hrepeats] at h
            exact viable_chainFrom_one hrepeats (reads_climb hreads tighter) ih
              (List.length_take_le 1 tokens) hleft h

end

def Inside.Word : Inside → List Token → Prop
  | .operand => Parser.Word (.expression [])
  | .expression => Parser.Word (.expression levels)

theorem Inside.Word.spells {role : Inside} {w : List Token} (h : role.Word w) (rest : List Token) :
    ∃ n, role.Spells n w rest := by
  cases role with
  | operand => exact h
  | expression => exact h

theorem ReadsPart.reads_word {part : Part} {p : Parser Node} (h : ReadsPart part p) :
    Reads (fun _ w => Word part w) p := by
  intro tokens n rest hn
  obtain ⟨w, hw, hspells⟩ := h hn
  exact ⟨w, hw, n, hspells⟩

theorem begins_word (ls : List Level) : Begins (Word (.expression ls)) [] :=
  ⟨[.symbol .nil], word_nil ls .start⟩

section

variable {op inner : Parser Node} (hreads : ReadsPart (.expression []) op)
  (hop : Viable (Word (.expression [])) [] op) (hreads' : ReadsPart (.expression levels) inner)
  (hinner : Viable (Word (.expression levels)) [] inner)

include hreads hop hreads' hinner

theorem viable_operandForm {l : Lexeme} {form : Form Inside}
    (hform : operandForm (some l) = .ok form) (p : Position) :
    Viable (Word (.expression [])) [⟨l, p⟩] (form.parser (insideReaders op inner) p) := by
  refine form.viable (L := Inside.Word) ?_ ?_ ?_ (kinds_operandForm hform) ?_ p
  · intro role
    cases role with
    | operand => exact hreads.reads_word
    | expression => exact hreads'.reads_word
  · intro role
    cases role with
    | operand => exact begins_word []
    | expression => exact begins_word levels
  · intro role
    cases role with
    | operand => exact hop
    | expression => exact hinner
  · intro w hw
    obtain ⟨r, hr⟩ := hw.exists_spells Inside.Word.spells []
    exact ⟨[], _, by simpa using spells_operandForm hform hr p⟩

theorem viable_operandWith : Viable (Word (.expression [])) [] (operandWith op inner) := by
  intro tokens kind rest h
  rw [operandWith_by] at h
  unfold operandBy at h
  cases hform : operandForm (nextLexeme? tokens) with
  | error kind =>
      rw [hform] at h
      exact Viable.reject (begins_word []) (operandForm_error hform).ne_unterminatedString h
  | ok form =>
      rw [hform] at h
      cases tokens with
      | nil => cases hform
      | cons t tokens =>
          exact (viable_operandForm hreads hop hreads' hinner hform t.position).cons h

end

theorem viable_operand (depth : Nat) : Viable (Word (.expression [])) [] (operand depth) := by
  induction depth with
  | zero => exact viable_operandWith (reads_tooDeep _) .tooDeep (reads_tooDeep _) .tooDeep
  | succ depth ih =>
      exact viable_operandWith (reads_operand depth) ih (reads_expression depth)
        (viable_climb (reads_operand depth) ih levels)

theorem viable_expression (depth : Nat) :
    Viable (Word (.expression levels)) [] (expression (operand depth)) :=
  viable_climb (reads_operand depth) (viable_operand depth) levels

/-! ## Statements -/

/-- Tokens that spell a sequence of statements. -/
def Text (w : List Token) : Prop := ∃ nodes, Spells .statements nodes w

section

variable {expr inner statement : Parser Node} {sequence more : Parser (List Node)}

theorem viable_body {L : List Token → Prop} {u : List Token} (h : Viable L u sequence) :
    Viable L u (body sequence) := by
  intro tokens kind rest hp
  unfold body at hp
  cases hs : sequence tokens with
  | ok result =>
      rw [hs] at hp
      cases hp
  | error failure =>
      rw [hs] at hp
      cases hp
      exact h hs

def Clause.Word : Clause → List Token → Prop
  | .expression => Parser.Word (.expression levels)
  | .body => Text

theorem Clause.Word.spells {role : Clause} {w : List Token} (h : role.Word w) (rest : List Token) :
    ∃ n, role.Spells n w rest := by
  cases role with
  | expression => exact h
  | body =>
      obtain ⟨nodes, hnodes⟩ := h
      exact ⟨_, nodes, rfl, hnodes⟩

section

variable (hreads : ReadsPart (.expression levels) expr)
  (hexpr : Viable (Word (.expression levels)) [] expr) (hreads' : ReadsBody inner)
  (hinner : Viable Text [] inner)

include hreads hexpr hreads' hinner

/-- Where all that a statement accepts is a word, a rejected token stands behind the beginning of
one. -/
theorem viable_statement {form : Form Clause}
    (hkinds : ∀ kind ∈ form.pattern.kinds, ParserKind kind)
    {part : Part} {t : Token} (hword : ∀ {r w}, form.pattern.Spells Clause.Spells r w [] →
      Spells part [form.build r t.position] (t :: w)) :
    Viable (Word part) [t] (form.parser (clauseReaders expr inner) t.position) := by
  refine form.viable (L := Clause.Word) ?_ ?_ ?_ hkinds ?_ t.position
  · intro role
    cases role with
    | expression => exact hreads.reads_word
    | body =>
        intro tokens n rest hn
        obtain ⟨w, hw, nodes, -, hspells⟩ := hreads' hn
        exact ⟨w, hw, nodes, hspells⟩
  · intro role
    cases role with
    | expression => exact begins_word levels
    | body => exact ⟨[], [], .noStatements⟩
  · intro role
    cases role with
    | expression => exact hexpr
    | body => exact hinner
  · intro w hw
    obtain ⟨r, hr⟩ := hw.exists_spells Clause.Word.spells []
    exact ⟨[], _, by simpa using hword hr⟩

end

theorem viable_afterControl {u : List Token} {t : Token} (hmore : ∀ {v}, (∀ x, Text x →
      Begins Text (v ++ x)) → Viable Text v more) (hreads : Reads (Spells .statements) more)
    (hstatement : Viable (Word .control) [t] statement)
    (hspells : Reads (fun n w => Spells .control [n] (t :: w)) statement)
    (hu : ∀ x, Text x → Begins Text (u ++ x)) :
    Viable Text (u ++ [t]) (afterControl more statement) := by
  refine .bind hspells (hstatement.imp ?_) fun {n w} hn => ?_
  · rintro w ⟨n, hn⟩
    have hbegins := hu _ ⟨_, .afterControl hn .noStatements⟩
    simpa using hbegins
  · have hnext : ∀ x, Text x → Begins Text (u ++ [t] ++ w ++ x) := by
      rintro x ⟨nodes, hx⟩
      have hbegins := hu _ ⟨_, .afterControl hn hx⟩
      simpa using hbegins
    refine .bind_accept (fun p => ?_) ?_
    · refine .bind hreads (hmore ?_) fun _ => .pure _
      rintro x ⟨nodes, hx⟩
      have hbegins := hu _ ⟨_, .afterControlComma p hn hx⟩
      simpa using hbegins
    · exact .bind hreads (hmore hnext) fun _ => .pure _

theorem viable_afterSimple {u front : List Token} (hmore : ∀ {v}, (∀ x, Text x →
      Begins Text (v ++ x)) → Viable Text v more) (hreads : Reads (Spells .statements) more)
    (hstatement : Viable (Word .simple) front statement)
    (hspells : Reads (fun n w => Spells .simple [n] (front ++ w)) statement)
    (hu : ∀ x, Text x → Begins Text (u ++ x)) :
    Viable Text (u ++ front) (afterSimple more statement) := by
  refine .bind hspells (hstatement.imp ?_) fun {n w} hn => ?_
  · rintro w ⟨n, hn⟩
    have hbegins := hu _ ⟨_, .lastStatement hn⟩
    simpa using hbegins
  · refine .bind_accept (fun p => ?_) (.pure _)
    refine .bind hreads (hmore ?_) fun _ => .pure _
    rintro x ⟨nodes, hx⟩
    have hbegins := hu _ ⟨_, .afterSimple p hn hx⟩
    simpa using hbegins

theorem viable_statementsFrom (hreads : ReadsPart (.expression levels) expr)
    (hexpr : Viable (Word (.expression levels)) [] expr) (hreads' : ReadsBody inner)
    (hinner : Viable Text [] inner) (rounds : List Token) {u : List Token}
    (hu : ∀ x, Text x → Begins Text (u ++ x)) :
    Viable Text u (statementsFrom expr inner rounds) := by
  induction rounds generalizing u with
  | nil => exact .pure _
  | cons round rounds ih =>
      have hmore : Reads (Spells .statements) (statementsFrom expr inner rounds) :=
        reads_statementsFrom hreads hreads' rounds
      intro tokens kind rest h
      rw [statementsFrom_cons_by] at h
      cases hstart : start (nextLexeme? tokens) with
      | stop =>
          rw [statementsBy_stop hstart] at h
          cases h
      | control form =>
          rw [statementsBy_control hstart] at h
          cases tokens with
          | nil => cases hstart
          | cons t tokens =>
              have hstatement := viable_statement hreads hexpr hreads' hinner (t := t)
                (kinds_control hstart) fun hr => spells_control hstart hr _
              exact (viable_afterControl ih hmore hstatement (reads_control hreads hreads' hstart _)
                hu).cons h
      | simple form =>
          rw [statementsBy_simple hstart] at h
          cases tokens with
          | nil => cases hstart
          | cons t tokens =>
              have hstatement := viable_statement hreads hexpr hreads' hinner (t := t)
                (kinds_simple hstart) fun hr => spells_simple hstart hr _
              exact (viable_afterSimple ih hmore hstatement (reads_simple hreads hreads' hstart _)
                hu).cons h
      | expression =>
          rw [statementsBy_expression hstart] at h
          have hsimple : Viable (Word .simple) [] expr := by
            refine hexpr.imp ?_
            rintro w ⟨n, hn⟩
            exact ⟨[], n, by simpa using Spells.expression hn⟩
          have hspells : Reads (fun n w => Spells .simple [n] ([] ++ w)) expr := by
            intro tokens n rest hn
            obtain ⟨w, hw, hspells⟩ := hreads hn
            exact ⟨w, hw, .expression hspells⟩
          have hafter := viable_afterSimple ih hmore hsimple hspells hu
          rw [List.append_nil] at hafter
          exact hafter h

end

theorem viable_statements (depth : Nat) : Viable Text [] (statements depth) := by
  have hstart : ∀ x, Text x → Begins Text ([] ++ x) := fun x hx => ⟨[], by simpa using hx⟩
  induction depth with
  | zero =>
      intro tokens kind rest h
      exact viable_statementsFrom (reads_expression 0) (viable_expression 0) readsBody_tooDeep
        .tooDeep tokens hstart h
  | succ depth ih =>
      intro tokens kind rest h
      exact viable_statementsFrom (reads_expression _) (viable_expression _)
        (readsBody_body (reads_statements depth)) (viable_body ih) tokens hstart h

/-- The tokens before a rejected one, or before the end, begin a derivable program. -/
theorem viable_root (depth : Nat) : Viable (Derives (.phrase .root)) [] (root depth) := by
  intro tokens kind rest h
  have hderives : ∀ {w}, Begins Text w → Begins (Derives (.phrase .root)) w := by
    rintro w ⟨more, nodes, hspells⟩
    exact ⟨more, hspells.derives⟩
  unfold root at h
  cases hs : statements depth tokens with
  | error failure =>
      rw [hs] at h
      cases h
      obtain ⟨hkind, w, hw, hbegins⟩ := viable_statements depth hs
      exact ⟨hkind, w, hw, hderives hbegins⟩
  | ok result =>
      obtain ⟨nodes, after⟩ := result
      rw [hs] at h
      cases after with
      | nil => cases h
      | cons t after =>
          cases h
          obtain ⟨w, hw, hspells⟩ := reads_statements depth hs
          exact ⟨by decide, w, hw, hderives ⟨[], nodes, by simpa using hspells⟩⟩

end Scriptlet.Parser
