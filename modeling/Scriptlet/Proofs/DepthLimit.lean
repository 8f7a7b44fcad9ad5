import Scriptlet.Proofs.Evaluation.Grouping
import Scriptlet.Proofs.Syntax.Unrolling

/-!
# The limit of depth

Reading and evaluating keep count of the levels that are open. The count decides only whether the
limit is hit: what comes to an end below one limit comes to the same end below any higher one.
-/

namespace Scriptlet

namespace Parser

variable {α β : Type}

/-- The second parser does what the first does, unless the first runs out of depth. -/
def Extends (p q : Parser α) : Prop :=
  ∀ tokens, q tokens = p tokens ∨ ∃ rest, p tokens = .error (.tooDeep rest)

namespace Extends

variable {p q : Parser α} {f g : α → Parser β}

theorem refl (p : Parser α) : Extends p p := fun _ => .inl rfl

theorem tooDeep (q : Parser α) : Extends tooDeep q := fun tokens => .inr ⟨tokens, rfl⟩

theorem bind (first : Extends p q) (second : ∀ a, Extends (f a) (g a)) :
    Extends (p >>= f) (q >>= g) := by
  intro tokens
  change Parser.bind q g tokens = Parser.bind p f tokens ∨
    ∃ rest, Parser.bind p f tokens = .error (.tooDeep rest)
  unfold Parser.bind
  rcases first tokens with same | ⟨rest, hdeep⟩
  · rw [same]
    cases p tokens with
    | error failure => exact .inl rfl
    | ok result => exact second result.1 result.2
  · rw [hdeep]
    exact .inr ⟨rest, rfl⟩

theorem map (first : Extends p q) (f : α → Parser β) : Extends (p >>= f) (q >>= f) :=
  first.bind fun a => refl (f a)

theorem separatedFrom (items : Extends p q) (rounds : List Token) :
    Extends (separatedFrom p rounds) (separatedFrom q rounds) := by
  induction rounds with
  | nil => exact items.map _
  | cons round rounds ih =>
      refine items.bind fun first => (refl _).bind fun more => ?_
      cases more with
      | true => exact ih.map _
      | false => exact refl _

theorem listed (items : Extends p q) (kind : SyntaxError.Kind) :
    Extends (listed p kind) (listed q kind) := by
  refine (refl _).bind fun closed => ?_
  cases closed with
  | true => exact refl _
  | false =>
      have separated : Extends (separated p) (separated q) :=
        fun tokens => items.separatedFrom tokens tokens
      exact separated.map _

theorem shift {f g : Position → Parser α} (h : ∀ p, Extends (f p) (g p)) :
    Extends (shift f) (shift g) := by
  intro tokens
  cases tokens with
  | nil => exact .inl rfl
  | cons t tokens => exact h t.position tokens

end Extends

section

variable {σ : Type} {readers readers' : σ → Parser Node}
  (hreaders : ∀ role, Extends (readers role) (readers' role))

include hreaders

theorem Item.extends_parser (item : Item σ) :
    Extends (item.parser readers) (item.parser readers') := by
  cases item with
  | tree role => exact hreaders role
  | name kind => exact .refl _

theorem Pattern.extends_parser (pattern : Pattern σ) :
    Extends (pattern.parser readers) (pattern.parser readers') := by
  induction pattern with
  | done => exact .refl _
  | read item next ih => exact (item.extends_parser hreaders).bind fun _ => ih.map _
  | list item kind next ih =>
      exact ((item.extends_parser hreaders).listed kind).bind fun _ => ih.map _
  | require s kind next ih => exact (Extends.refl _).bind fun _ => ih
  | branch s yes no ihyes ihno =>
      refine (Extends.refl _).bind fun found => ?_
      cases found with
      | true => exact ihyes.map _
      | false => exact ihno.map _

theorem Form.extends_parser (form : Form σ) (p : Position) :
    Extends (form.parser readers p) (form.parser readers' p) :=
  (form.pattern.extends_parser hreaders).map _

end

namespace Extends

section

variable {op op' inner inner' expr expr' : Parser Node}
variable {sequence sequence' more more' : Parser (List Node)}

theorem chainFrom (ops : Extends op op') (operators : List Symbol) (rounds : List Token)
    (left : Node) : Extends (chainFrom operators op rounds left)
      (chainFrom operators op' rounds left) := by
  induction rounds generalizing left with
  | nil => exact refl _
  | cons round rounds ih =>
      refine (refl _).bind fun found => ?_
      cases found with
      | none => exact refl _
      | some operator => exact ops.bind fun right => ih _

theorem climb (ops : Extends op op') (ls : List Level) :
    Extends (climb op ls) (climb op' ls) := by
  induction ls with
  | nil => exact ops
  | cons level tighter ih =>
      exact ih.bind fun left tokens => ih.chainFrom level.operators _ left tokens

theorem operandWith (ops : Extends op op') (inners : Extends inner inner') :
    Extends (operandWith op inner) (operandWith op' inner') := by
  have insides (role : Inside) :
      Extends (insideReaders op inner role) (insideReaders op' inner' role) := by
    cases role with
    | operand => exact ops
    | expression => exact inners
  intro tokens
  rw [operandWith_by, operandWith_by]
  unfold operandBy
  cases operandForm (nextLexeme? tokens) with
  | error kind => exact refl _ tokens
  | ok form => exact shift (form.extends_parser insides) tokens

theorem body (sequences : Extends sequence sequence') :
    Extends (body sequence) (body sequence') := by
  intro tokens
  unfold Parser.body
  rcases sequences tokens with same | ⟨rest, hdeep⟩
  · exact .inl (by rw [same])
  · exact .inr ⟨rest, by rw [hdeep]⟩

theorem afterControl (mores : Extends more more') (exprs : Extends expr expr') :
    Extends (afterControl more expr) (afterControl more' expr') :=
  exprs.bind fun _ => (refl _).bind fun _ => mores.map _

theorem afterSimple (mores : Extends more more') (exprs : Extends expr expr') :
    Extends (afterSimple more expr) (afterSimple more' expr') := by
  refine exprs.bind fun first => (refl _).bind fun comma => ?_
  cases comma with
  | true => exact mores.map _
  | false => exact refl _

theorem statementsFrom (exprs : Extends expr expr') (inners : Extends inner inner')
    (rounds : List Token) :
    Extends (statementsFrom expr inner rounds) (statementsFrom expr' inner' rounds) := by
  have clauses (role : Clause) :
      Extends (clauseReaders expr inner role) (clauseReaders expr' inner' role) := by
    cases role with
    | expression => exact exprs
    | body => exact inners
  induction rounds with
  | nil => exact refl _
  | cons round rounds ih =>
      intro tokens
      rw [statementsFrom_cons_by, statementsFrom_cons_by]
      unfold statementsBy
      cases start (nextLexeme? tokens) with
      | stop => exact refl _ tokens
      | control form =>
          exact shift (fun p => ih.afterControl (form.extends_parser clauses p)) tokens
      | simple form => exact shift (fun p => ih.afterSimple (form.extends_parser clauses p)) tokens
      | expression => exact ih.afterSimple exprs tokens

theorem statementsWith (exprs : Extends expr expr') (inners : Extends inner inner') :
    Extends (statementsWith expr inner) (statementsWith expr' inner') :=
  fun tokens => exprs.statementsFrom inners tokens tokens

end

variable {depth depth' : Nat}

theorem operand (enough : depth ≤ depth') :
    Extends (Parser.operand depth) (Parser.operand depth') := by
  induction depth generalizing depth' with
  | zero =>
      cases depth' with
      | zero => exact refl _
      | succ depth' => exact (tooDeep _).operandWith (tooDeep _)
  | succ depth ih =>
      obtain ⟨below, rfl⟩ : ∃ below, depth' = below + 1 := ⟨depth' - 1, by omega⟩
      have ops := ih (Nat.le_of_succ_le_succ enough)
      exact ops.operandWith (ops.climb levels)

theorem statements (enough : depth ≤ depth') :
    Extends (Parser.statements depth) (Parser.statements depth') := by
  induction depth generalizing depth' with
  | zero =>
      have exprs := (operand enough).climb levels
      cases depth' with
      | zero => exact refl _
      | succ depth' => exact exprs.statementsWith (tooDeep _)
  | succ depth ih =>
      have exprs := (operand enough).climb levels
      obtain ⟨below, rfl⟩ : ∃ below, depth' = below + 1 := ⟨depth' - 1, by omega⟩
      exact exprs.statementsWith (ih (Nat.le_of_succ_le_succ enough)).body

theorem root (enough : depth ≤ depth') : Extends (Parser.root depth) (Parser.root depth') := by
  intro tokens
  unfold Parser.root
  rcases statements enough tokens with same | ⟨rest, hdeep⟩
  · exact .inl (by rw [same])
  · exact .inr ⟨rest, by rw [hdeep]⟩

end Extends

end Parser

/-- A source that is read without hitting the limit is read the same below a higher one. -/
theorem Parsed.ofBytes_deeper {depth depth' : Nat} (enough : depth ≤ depth') {bytes : List UInt8}
    (hdeep : ∀ e ∈ (Parsed.ofBytes depth bytes).error, e.kind ≠ .nestingTooDeep) :
    Parsed.ofBytes depth' bytes = Parsed.ofBytes depth bytes := by
  unfold Parsed.ofBytes Parsed.ofScan at hdeep ⊢
  rcases Parser.Extends.root enough (Scan.ofBytes bytes).tokens with same | ⟨rest, hroot⟩
  · rw [same]
  · rw [hroot] at hdeep
    exact absurd (Parsed.errorOf_tooDeep _ rest) (hdeep _ rfl)

/-- An evaluation that ends without hitting the limit ends the same below a higher one. -/
theorem evaluate_deeper {mode : Mode} {limit limit' : Nat} (enough : limit ≤ limit') {tree : Node}
    {h : Handle} {s : Store}
    (hdeep : (evaluate { mode with depth := limit } tree h s).1.exhausted = false) :
    evaluate { mode with depth := limit' } tree h s =
      evaluate { mode with depth := limit } tree h s := by
  simp only [evaluate_eq, nested_withDepth] at hdeep ⊢
  rw [nested_deeper enough (Outcome.ne_tooDeep hdeep)]

/-- The limit only decides whether it is hit. An evaluation that ends in anything else keeps its
verdict, its output and its scopes below every higher limit, and a source that nests no deeper than
one limit gives the same tree, error and skipped bytes below every higher one. -/
theorem limit_only_decides_exhaustion (mode : Mode) (limit limit' : Nat) (enough : limit ≤ limit') :
    (∀ tree h s, (evaluate { mode with depth := limit } tree h s).1.exhausted = false →
      evaluate { mode with depth := limit' } tree h s =
        evaluate { mode with depth := limit } tree h s) ∧
    ∀ bytes, (∀ e ∈ (Parsed.ofBytes limit bytes).error, e.kind ≠ .nestingTooDeep) →
      Parsed.ofBytes limit' bytes = Parsed.ofBytes limit bytes :=
  ⟨fun _ _ _ => evaluate_deeper enough, fun _ => Parsed.ofBytes_deeper enough⟩

/-- A call opens four levels in the body of its function, and is read from `f((1))` with two. One
level less is not enough for either. -/
theorem limit_only_decides_exhaustion_in_call :
    let body : Node := .block [.ret (.reference "x" none) none] none
    let s := evaluateAll {} [.function "f" ["x"] body none] startStore
    let tree : Node := .call "f" [.group (.string "a" none) none] none
    let run (limit : Nat) := evaluate { depth := limit } tree Arena.rootHandle s
    let bytes : List UInt8 := [102, 40, 40, 49, 41, 41]
    let read (limit : Nat) := Parsed.ofBytes limit bytes
    (run 4).1 = .value (.string "a") ∧ run 60 = run 4 ∧ (run 3).1.exhausted = true ∧
      (read 2).error = none ∧ read 60 = read 2 ∧
      (read 1).error.map (·.kind) = some .nestingTooDeep := by
  intro body s tree run bytes read
  have hrun : (run 4).1.exhausted = false := rfl
  have hread : (read 2).error = none := by decide
  refine ⟨rfl, ?_, rfl, hread, ?_, by decide⟩
  · exact (limit_only_decides_exhaustion {} 4 60 (by decide)).1 tree Arena.rootHandle s hrun
  · refine (limit_only_decides_exhaustion {} 2 60 (by decide)).2 bytes fun e he => ?_
    change e ∈ (read 2).error at he
    rw [hread] at he
    cases he

end Scriptlet
