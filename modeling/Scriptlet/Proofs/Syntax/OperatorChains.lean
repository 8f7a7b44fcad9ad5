import Scriptlet.Proofs.Syntax.Joining
import Scriptlet.Proofs.Syntax.Precedence

/-!
# Chains of operators

Literals and names with binary operators between them make a chain, which may be of any length. What
it means can be said without a parser, by the tiers that the grammar gives to operators: it is split
at the rightmost operator of the loosest tier in it, and so on with both parts. Two operators of a
tier that takes only one clash unless a looser one stands between them. The parser climbs from level
to level and never goes back. It finds the same tree, or it stops at the first operator that clashes
with an earlier one.
-/

namespace Scriptlet.Parser

/-! ## Chains -/

/-- A literal or a name, which is an operand by itself. -/
inductive Atom where
  | number (x : Float) (position : Position)
  | boolean (b : Bool) (position : Position)
  | string (s : String) (position : Position)
  | nil (position : Position)
  | name (s : String) (position : Position)

namespace Atom

def token : Atom → Token
  | .number x p => ⟨.number x, p⟩
  | .boolean b p => ⟨.boolean b, p⟩
  | .string s p => ⟨.string s, p⟩
  | .nil p => ⟨.symbol .nil, p⟩
  | .name s p => ⟨.identifier s, p⟩

def node : Atom → Node
  | .number x p => .number x p
  | .boolean b p => .boolean b p
  | .string s p => .string s p
  | .nil p => .nil p
  | .name s p => .reference s p

end Atom

/-- A binary operator and the operand behind it. -/
structure Link where
  operator : Symbol
  place : Position
  operand : Atom
  binary : operator.IsBinary

def Link.tier (link : Link) : Nat := link.operator.tier?.get link.binary

def Link.token (link : Link) : Token := ⟨.symbol link.operator, link.place⟩

def linkTokens (links : List Link) : List Token :=
  links.flatMap fun link => [link.token, link.operand.token]

def chainTokens (first : Atom) (links : List Link) : List Token := first.token :: linkTokens links

/-- The tree of a chain: it is split at the rightmost operator of the loosest tier in it. -/
inductive SplitsTo : Atom → List Link → Node → Prop where
  | atom (first : Atom) : SplitsTo first [] first.node
  | split {first : Atom} {before after : List Link} {link : Link} {left right : Node}
      (loosest : ∀ l ∈ before, link.tier ≤ l.tier)
      (rightmost : ∀ l ∈ after, link.tier < l.tier)
      (splitLeft : SplitsTo first before left) (splitRight : SplitsTo link.operand after right) :
      SplitsTo first (before ++ link :: after)
        (.binary (.symbol link.operator) left right left.position)

/-- Two operators of one tier, which takes one operator at most. -/
def Rivals (first second : Link) : Prop := first.tier = second.tier ∧ Lone second.tier

instance (first second : Link) : Decidable (Rivals first second) :=
  inferInstanceAs (Decidable (_ ∧ _))

/-- The operators at two places of a chain are rivals, and no operator between them is looser. -/
def Clash (links : List Link) (i j : Nat) : Prop :=
  i < j ∧ ∃ first ∈ links[i]?, ∃ second ∈ links[j]?, Rivals first second ∧
    ∀ k < j, i < k → ∀ between ∈ links[k]?, second.tier ≤ between.tier

instance (links : List Link) (i j : Nat) : Decidable (Clash links i j) :=
  inferInstanceAs (Decidable (_ ∧ _))

/-! ## Tiers and levels -/

theorem tier?_of_mem_operators : ∀ n < levels.length, ∀ level ∈ levels[n]?,
    ∀ s ∈ level.operators, s.tier? = some n := by
  decide

theorem mem_operators_of_tier? {s : Symbol} {n : Nat} (h : s.tier? = some n) :
    ∀ level ∈ levels[n]?, s ∈ level.operators := by
  cases s <;> cases h <;> decide

theorem repeats_eq_false_iff : ∀ n < levels.length, ∀ level ∈ levels[n]?,
    level.repeats = false ↔ Lone n := by
  decide

theorem Link.tier?_eq (link : Link) : link.operator.tier? = some link.tier :=
  (Option.some_get link.binary).symm

theorem Link.tier_lt (link : Link) : link.tier < levels.length :=
  Token.tier?_lt (show link.token.tier? = _ from link.tier?_eq)

section

variable {looser tighter : List Level} {level : Level} {link l : Link}

section

variable (h : levels = looser ++ level :: tighter)

include h

theorem getElem?_level : looser.length < levels.length ∧ levels[looser.length]? = some level := by
  rw [h]
  simp

theorem mem_operators_iff : link.operator ∈ level.operators ↔ link.tier = looser.length := by
  obtain ⟨inside, found⟩ := getElem?_level h
  constructor
  · intro operator
    have tier := tier?_of_mem_operators _ inside level found _ operator
    exact Option.some.inj (link.tier?_eq.symm.trans tier)
  · intro tier
    exact mem_operators_of_tier? (link.tier?_eq.trans (congrArg some tier)) level found

theorem lone_iff : level.repeats = false ↔ Lone looser.length :=
  repeats_eq_false_iff _ (getElem?_level h).1 level (getElem?_level h).2

theorem Rivals.not_repeats (rivals : Rivals l link) (operator : link.operator ∈ level.operators) :
    level.repeats = false := by
  rw [lone_iff h, ← (mem_operators_iff h).mp operator]
  exact rivals.2

end

end

/-! ## Clashes -/

theorem split_cases {front front' back back' : List Link} {link link' : Link}
    (h : front ++ link :: back = front' ++ link' :: back') :
    (front = front' ∧ link = link' ∧ back = back') ∨
      (∃ between, front' = front ++ link :: between ∧ back = between ++ link' :: back') ∨
      ∃ between, front = front' ++ link' :: between ∧ back' = between ++ link :: back := by
  rcases List.append_eq_append_iff.mp h with ⟨more, hfront, hback⟩ | ⟨more, hfront, hback⟩
  · cases more with
    | nil =>
        rw [List.append_nil] at hfront
        cases hback
        exact .inl ⟨hfront.symm, rfl, rfl⟩
    | cons l between =>
        cases hback
        exact .inr (.inl ⟨between, hfront, rfl⟩)
  · cases more with
    | nil =>
        rw [List.append_nil] at hfront
        cases hback
        exact .inl ⟨hfront, rfl, rfl⟩
    | cons l between =>
        cases hback
        exact .inr (.inr ⟨between, hfront, rfl⟩)

/-- The operator of `link`, put behind a chain, would clash with an operator in it. -/
def ClashesBehind (front : List Link) (link : Link) : Prop :=
  ∃ before first between, front = before ++ first :: between ∧
    Rivals first link ∧ ∀ l ∈ between, link.tier ≤ l.tier

def Clear (links : List Link) : Prop :=
  ∀ front link back, links = front ++ link :: back → ¬ClashesBehind front link

section

variable {front back links : List Link} {link l : Link}

theorem ClashesBehind.append (h : ClashesBehind back l) (front : List Link) :
    ClashesBehind (front ++ back) l := by
  obtain ⟨before, first, between, rfl, rivals, tight⟩ := h
  exact ⟨front ++ before, first, between, by simp, rivals, tight⟩

/-- Before a looser operator there is nothing to clash with. -/
theorem ClashesBehind.of_looser (h : ClashesBehind (front ++ link :: back) l)
    (looser : link.tier < l.tier) : ClashesBehind back l := by
  obtain ⟨before, first, between, heq, rivals, tight⟩ := h
  have same := rivals.1
  rcases split_cases heq with ⟨-, rfl, -⟩ | ⟨more, -, hback⟩ | ⟨more, -, rfl⟩
  · omega
  · exact ⟨more, first, between, hback, rivals, tight⟩
  · have := tight link (by simp)
    omega

theorem clear_nil : Clear [] := by
  intro front link back h
  simp at h

/-- A chain is clear if it falls into clear parts at an operator that is looser than all behind it
and clashes with none before it. -/
theorem Clear.append (hfront : Clear front) (hback : Clear back) (hlink : ¬ClashesBehind front link)
    (looser : ∀ l ∈ back, link.tier < l.tier) :
    Clear (front ++ link :: back) := by
  intro front' l back' heq clash
  rcases split_cases heq with ⟨rfl, rfl, -⟩ | ⟨more, rfl, rfl⟩ | ⟨more, rfl, -⟩
  · exact hlink clash
  · exact hback more l back' rfl (clash.of_looser (looser l (by simp)))
  · exact hfront front' l more rfl clash

end

/-! ## Reading a chain -/

/-- The links make a tree with operators from tier `k` on, and none of them clashes. -/
structure Takes (k : Nat) (first : Atom) (taken : List Link) (node : Node) : Prop where
  tight : ∀ l ∈ taken, k ≤ l.tier
  splits : SplitsTo first taken node
  clear : Clear taken

/-- The chain is over, or the next operator is looser or clashes. -/
def BlockedAt (k : Nat) (taken rest : List Link) : Prop :=
  ∀ l ∈ rest.head?, l.tier < k ∨ ClashesBehind taken l

/-- Of every chain the parser reads the links up to the first operator that is looser or clashes. -/
def ReadsChains (p : Parser Node) (k : Nat) : Prop :=
  ∀ first links, ∃ taken rest node, links = taken ++ rest ∧
    p (chainTokens first links) = .ok (node, linkTokens rest) ∧ Takes k first taken node ∧
    BlockedAt k taken rest

section

variable {op : Parser Node} {looser tighter : List Level} {level : Level} {first : Atom}
  {taken after rest : List Link} {node right : Node} {link : Link}

theorem linkTokens_next {s : Symbol} (h : ¬s.IsBinary) (links : List Link) :
    ∀ t ∈ (linkTokens links).head?, t.lexeme ≠ .symbol s := by
  intro t ht heq
  cases links with
  | nil => cases ht
  | cons link links =>
      cases ht
      cases heq
      exact h link.binary

theorem operandWith_atom (op inner : Parser Node) (a : Atom) (links : List Link) :
    operandWith op inner (chainTokens a links) = .ok (a.node, linkTokens links) := by
  cases a with
  | number | boolean | string | nil => rfl
  | name s p =>
      exact operandWith_name s p fun t ht =>
        ⟨linkTokens_next (by decide) links t ht, linkTokens_next (by decide) links t ht⟩

theorem operand_atom (depth : Nat) (a : Atom) (links : List Link) :
    operand depth (chainTokens a links) = .ok (a.node, linkTokens links) := by
  cases depth with
  | zero => exact operandWith_atom tooDeep tooDeep a links
  | succ depth => exact operandWith_atom _ _ a links

theorem acceptAny_link {symbols : List Symbol} (h : link.operator ∈ symbols) (rest : List Link) :
    acceptAny symbols (linkTokens (link :: rest)) =
      .ok (some link.operator, chainTokens link.operand rest) :=
  if_pos h

theorem acceptAny_no_link {symbols : List Symbol} (h : ∀ l ∈ rest.head?, l.operator ∉ symbols) :
    acceptAny symbols (linkTokens rest) = .ok (none, linkTokens rest) := by
  cases rest with
  | nil => rfl
  | cons link rest => exact if_neg (h link rfl)

section

variable (hlevels : levels = looser ++ level :: tighter)

include hlevels

theorem Takes.join (takes : Takes looser.length first taken node)
    (fresh : level.repeats = true ∨ ∀ l ∈ taken, looser.length < l.tier)
    (operator : link.operator ∈ level.operators)
    (behind : Takes (looser.length + 1) link.operand after right) :
    Takes looser.length first (taken ++ link :: after)
      (.binary (.symbol link.operator) node right node.position) := by
  have htier := (mem_operators_iff hlevels).mp operator
  have tighter : ∀ l ∈ after, link.tier < l.tier := fun l hl => by
    have := behind.tight l hl
    omega
  refine ⟨?_, .split (htier ▸ takes.tight) tighter takes.splits behind.splits,
    takes.clear.append behind.clear ?_ tighter⟩
  · intro l hl
    rcases List.mem_append.mp hl with hl | hl
    · exact takes.tight l hl
    · rcases List.mem_cons.mp hl with rfl | hl
      · omega
      · have := behind.tight l hl
        omega
  · -- A rival in front would be of this level, and the level would repeat.
    rintro ⟨before, rival, between, rfl, rivals, -⟩
    rcases fresh with repeats | fresh
    · rw [rivals.not_repeats hlevels operator] at repeats
      cases repeats
    · have := fresh rival (by simp)
      have := rivals.1
      omega

theorem BlockedAt.lone (stops : BlockedAt (looser.length + 1) (taken ++ link :: after) rest)
    (lone : level.repeats = false) (operator : link.operator ∈ level.operators)
    (tight : ∀ l ∈ after, looser.length + 1 ≤ l.tier) :
    BlockedAt looser.length (taken ++ link :: after) rest := by
  intro l hl
  rcases stops l hl with loose | clash
  · by_cases same : l.tier = looser.length
    · have rivals : Rivals link l :=
        ⟨((mem_operators_iff hlevels).mp operator).trans same.symm,
          same ▸ (lone_iff hlevels).mp lone⟩
      refine .inr ⟨taken, link, after, rfl, rivals, fun m hm => ?_⟩
      have := tight m hm
      omega
    · exact .inl (by omega)
  · exact .inr clash

theorem BlockedAt.passed (stops : BlockedAt (looser.length + 1) taken rest)
    (other : ∀ l ∈ rest.head?, l.operator ∉ level.operators) :
    BlockedAt looser.length taken rest := by
  intro l hl
  rcases stops l hl with loose | clash
  · have := mt (mem_operators_iff hlevels).mpr (other l hl)
    exact .inl (by omega)
  · exact .inr clash

/-- A level goes on with its operators as long as they come, or takes one of them. -/
theorem chain_reads (hcuts : Cuts op) (hop : ReadsChains op (looser.length + 1))
    (takes : Takes looser.length first taken node)
    (fresh : level.repeats = true ∨ ∀ l ∈ taken, looser.length < l.tier)
    (stops : BlockedAt (looser.length + 1) taken rest) :
    ∃ more rest' node', rest = more ++ rest' ∧
      chain level op node (linkTokens rest) = .ok (node', linkTokens rest') ∧
      Takes looser.length first (taken ++ more) node' ∧
      BlockedAt looser.length (taken ++ more) rest' := by
  -- Each round takes an operator, so the links that are left become fewer.
  induction hn : rest.length using Nat.strongRecOn generalizing taken rest node with
  | ind n ih =>
  rw [chain_eq hcuts]
  by_cases next : ∀ l ∈ rest.head?, l.operator ∉ level.operators
  · refine ⟨[], rest, node, rfl, bind_of_ok (acceptAny_no_link next), ?_, ?_⟩
    · rwa [List.append_nil]
    · rw [List.append_nil]
      exact stops.passed hlevels next
  · cases rest with
    | nil => simp at next
    | cons link rest =>
        have operator : link.operator ∈ level.operators := by simpa using next
        rw [bind_of_ok (acceptAny_link operator rest)]
        obtain ⟨after, later, right, rfl, hright, behind, stops'⟩ := hop link.operand rest
        have joined := takes.join hlevels fresh operator behind
        have blocked : BlockedAt (looser.length + 1) (taken ++ link :: after) later := by
          intro l hl
          refine (stops' l hl).imp_right fun clash => ?_
          rw [List.append_cons]
          exact clash.append (taken ++ [link])
        dsimp only
        rw [bind_of_ok hright]
        cases hrepeats : level.repeats with
        | true =>
            have shorter : later.length < n := by
              simp only [List.length_cons, List.length_append] at hn
              omega
            obtain ⟨more, rest', node', rfl, hchain, takes', stops''⟩ :=
              ih later.length shorter joined (.inl hrepeats) blocked rfl
            refine ⟨link :: after ++ more, rest', node', by simp, hchain, ?_, ?_⟩
            · simpa using takes'
            · simpa using stops''
        | false =>
            exact ⟨link :: after, later, _, rfl, rfl, joined,
              blocked.lone hlevels hrepeats operator behind.tight⟩

end

theorem climb_reads (hcuts : Cuts op)
    (hop : ∀ a links, op (chainTokens a links) = .ok (a.node, linkTokens links))
    (hlevels : levels = looser ++ tighter) : ReadsChains (climb op tighter) looser.length := by
  induction tighter generalizing looser with
  | nil =>
      intro first links
      refine ⟨[], links, first.node, rfl, hop first links, ⟨by simp, .atom first, clear_nil⟩, ?_⟩
      intro l _
      have := l.tier_lt
      rw [hlevels, List.append_nil] at this
      exact .inl this
  | cons level tighter ih =>
      intro first links
      have inner : ReadsChains (climb op tighter) (looser.length + 1) := by
        simpa using @ih (looser ++ [level]) (by simp [hlevels])
      obtain ⟨taken, rest, node, rfl, hread, takes, stops⟩ := inner first links
      have loose : Takes looser.length first taken node :=
        ⟨fun l hl => Nat.le_of_succ_le (takes.tight l hl), takes.splits, takes.clear⟩
      obtain ⟨more, rest', node', rfl, hchain, takes', stops'⟩ :=
        chain_reads hlevels (hcuts.climb tighter) inner loose (.inr takes.tight) stops
      refine ⟨taken ++ more, rest', node', by simp, ?_, takes', stops'⟩
      exact (bind_of_ok hread).trans hchain

end

/-! ## Places of clashes -/

section

variable {first : Atom} {links : List Link} {node node' : Node}

theorem SplitsTo.unique (h : SplitsTo first links node) (h' : SplitsTo first links node') :
    node = node' := by
  induction h generalizing node' with
  | atom first =>
      generalize hlinks : ([] : List Link) = links at h'
      cases h' with
      | atom => rfl
      | split => simp at hlinks
  | @split first before after link left right loosest rightmost _ _ ihl ihr =>
      generalize hlinks : before ++ link :: after = links at h'
      cases h' with
      | atom => simp at hlinks
      | @split _ before' after' link' left' right' loosest' rightmost' splitLeft' splitRight' =>
          -- Of two different places the earlier would have to be both looser and not looser.
          rcases split_cases hlinks with ⟨rfl, rfl, rfl⟩ | ⟨more, rfl, rfl⟩ | ⟨more, rfl, rfl⟩
          · rw [ihl splitLeft', ihr splitRight']
          · have := loosest' link (by simp)
            have := rightmost link' (by simp)
            omega
          · have := loosest link' (by simp)
            have := rightmost' link (by simp)
            omega

theorem getElem?_eq_some_iff_split {l : Link} {j : Nat} :
    links[j]? = some l ↔ ∃ front back, links = front ++ l :: back ∧ front.length = j := by
  constructor
  · intro h
    obtain ⟨hj, rfl⟩ := List.getElem?_eq_some_iff.mp h
    refine ⟨links.take j, links.drop (j + 1), ?_, List.length_take_of_le (Nat.le_of_lt hj)⟩
    rw [List.getElem_cons_drop, List.take_append_drop]
  · rintro ⟨front, back, rfl, rfl⟩
    simp

theorem getElem?_between (before back : List Link) (early : Link) {between : List Link} {k : Nat}
    (h : k < between.length) :
    (before ++ early :: between ++ back)[before.length + k + 1]? = between[k]? := by
  rw [List.append_assoc, Nat.add_assoc, List.getElem?_append_right (Nat.le_add_right ..),
    Nat.add_sub_cancel_left, List.cons_append, List.getElem?_cons_succ,
    List.getElem?_append_left h]

/-- What stands before the later of two operators that clash. -/
theorem exists_clash_iff {j : Nat} :
    (∃ i, Clash links i j) ↔
      ∃ front link back, links = front ++ link :: back ∧ front.length = j ∧
        ClashesBehind front link := by
  constructor
  · rintro ⟨i, lt, early, hi, late, hj, rivals, tight⟩
    obtain ⟨front, back, rfl, rfl⟩ := getElem?_eq_some_iff_split.mp hj
    rw [Option.mem_def, List.getElem?_append_left lt] at hi
    obtain ⟨before, between, rfl, rfl⟩ := getElem?_eq_some_iff_split.mp hi
    refine ⟨_, late, back, rfl, rfl, before, early, between, rfl, rivals, fun l hl => ?_⟩
    obtain ⟨k, hk⟩ := List.mem_iff_getElem?.mp hl
    have inside : k < between.length := (List.getElem?_eq_some_iff.mp hk).1
    refine tight (before.length + k + 1) ?_ (by omega) l ?_
    · rw [List.length_append, List.length_cons]
      omega
    · exact (getElem?_between before _ early inside).trans hk
  · rintro ⟨_, late, back, rfl, rfl, before, early, between, rfl, rivals, tight⟩
    refine ⟨before.length, by simp, early, by simp, late, by simp, rivals, ?_⟩
    intro k hkj hik l hl
    obtain ⟨k, rfl⟩ := Nat.exists_eq_add_of_lt hik
    rw [List.length_append, List.length_cons] at hkj
    rw [Option.mem_def, getElem?_between before _ early (by omega)] at hl
    exact tight l (List.mem_of_getElem? hl)

theorem Clear.not_clash (h : Clear links) : ¬∃ i j, Clash links i j := by
  rintro ⟨i, j, clash⟩
  obtain ⟨front, link, back, heq, -, behind⟩ := exists_clash_iff.mp ⟨i, clash⟩
  exact h front link back heq behind

/-- In a chain with a clear front no clash ends before the front does. -/
theorem Clear.length_le_of_clash {front back : List Link} (h : Clear front) {i j : Nat}
    (clash : Clash (front ++ back) i j) : front.length ≤ j := by
  obtain ⟨front', link, back', heq, rfl, behind⟩ := exists_clash_iff.mp ⟨i, clash⟩
  rcases List.append_eq_append_iff.mp heq with ⟨more, rfl, -⟩ | ⟨more, rfl, hmore⟩
  · simp
  · cases more with
    | nil => simp
    | cons l more =>
        cases hmore
        exact absurd behind (h front' link more rfl)

end

/-! ## Programs that are one chain -/

section

variable {first : Atom} {links rest : List Link} {node : Node}

theorem statementsWith_chain {expr inner : Parser Node}
    (h : expr (chainTokens first links) = .ok (node, linkTokens rest)) :
    statementsWith expr inner (chainTokens first links) = .ok ([node], linkTokens rest) := by
  have starts : first.token.kind.startsOperand = true := by cases first <;> rfl
  show statementsFrom expr inner (chainTokens first links) (chainTokens first links) = _
  have hstart : start (nextLexeme? (chainTokens first links)) = .expression :=
    start_of_startsOperand starts
  rw [chainTokens, statementsFrom_cons_by, ← chainTokens, statementsBy_expression hstart]
  exact (bind_of_ok h).trans (bind_of_ok (accept_other (linkTokens_next (by decide) rest)))

theorem statements_chain (depth : Nat) (first : Atom) (links : List Link) :
    ∃ taken rest node, links = taken ++ rest ∧
      statements depth (chainTokens first links) = .ok ([node], linkTokens rest) ∧
      SplitsTo first taken node ∧ Clear taken ∧ ∀ l ∈ rest.head?, ClashesBehind taken l := by
  have reads : ReadsChains (expression (operand depth)) 0 :=
    climb_reads (Cuts.operand depth) (operand_atom depth) (List.nil_append levels).symm
  obtain ⟨taken, rest, node, hlinks, hread, takes, stops⟩ := reads first links
  refine ⟨taken, rest, node, hlinks, ?_, takes.splits, takes.clear, fun l hl => ?_⟩
  · cases depth with
    | zero => exact statementsWith_chain hread
    | succ depth => exact statementsWith_chain hread
  · exact (stops l hl).resolve_left (Nat.not_lt_zero _)

variable {depth : Nat} {bytes : List UInt8} {place : Position}

/-- A chain without clashes is a program of one expression. -/
theorem ofBytes_of_splits (htokens : (Scan.ofBytes bytes).tokens = chainTokens first links)
    (hending : (Scan.ofBytes bytes).ending = .finished place)
    (hread : statements depth (chainTokens first links) = .ok ([node], [])) :
    Parsed.ofBytes depth bytes =
      ⟨.root [node] node.position, (Scan.ofBytes bytes).skips, none⟩ := by
  have hroot : root depth (Scan.ofBytes bytes).tokens = .ok (.root [node] node.position, []) := by
    rw [htokens, root, hread]
    rfl
  rw [Parsed.ofBytes, Parsed.ofScan, hroot, hending]

theorem error_of_link (htokens : (Scan.ofBytes bytes).tokens = chainTokens first links)
    {link : Link}
    (hread : statements depth (chainTokens first links) = .ok ([node], linkTokens (link :: rest))) :
    (Parsed.ofBytes depth bytes).error = some (.atToken .unexpectedToken link.token) := by
  have hroot : root depth (Scan.ofBytes bytes).tokens =
      .error (.rejected .unexpectedToken (linkTokens (link :: rest))) := by
    rw [htokens, root, hread]
    rfl
  rw [Parsed.ofBytes, Parsed.ofScan, hroot]
  rfl

/-- A program that is a chain of operators is rejected exactly if two of them clash, and then at the
first one that clashes with an earlier one. Otherwise it is the tree that splitting the chain
gives. Neither the length of the chain nor the depth that may be open matters. -/
theorem operator_chain_splits_or_clashes (depth : Nat)
    (htokens : (Scan.ofBytes bytes).tokens = chainTokens first links)
    (hending : (Scan.ofBytes bytes).ending = .finished place) :
    ((Parsed.ofBytes depth bytes).error.map (·.kind) = some .unexpectedToken ↔
      ∃ i j, Clash links i j) ∧
    (∀ i j link, Clash links i j → (∀ i' j', Clash links i' j' → j ≤ j') → links[j]? = some link →
      (Parsed.ofBytes depth bytes).error = some (.atToken .unexpectedToken link.token)) ∧
    ((¬∃ i j, Clash links i j) → ∃ node,
      Parsed.ofBytes depth bytes =
        ⟨.root [node] node.position, (Scan.ofBytes bytes).skips, none⟩ ∧
      ∀ node', SplitsTo first links node' ↔ node' = node) := by
  obtain ⟨taken, rest, node, rfl, hread, splits, clear, blocked⟩ :=
    statements_chain depth first links
  cases rest with
  | nil =>
      have parsed := ofBytes_of_splits htokens hending hread
      rw [List.append_nil]
      have peace := clear.not_clash
      refine ⟨⟨fun h => ?_, fun h => absurd h peace⟩, fun i j _ h => absurd ⟨i, j, h⟩ peace,
        fun _ => ⟨node, parsed, fun node' => ⟨fun h => h.unique splits, fun h => h ▸ splits⟩⟩⟩
      rw [parsed] at h
      cases h
  | cons late rest =>
      have error := error_of_link htokens hread
      obtain ⟨early, clash⟩ : ∃ i, Clash (taken ++ late :: rest) i taken.length :=
        exists_clash_iff.mpr ⟨taken, late, rest, rfl, rfl, blocked late rfl⟩
      refine ⟨⟨fun _ => ⟨early, _, clash⟩, fun _ => ?_⟩, fun i j link h least hlink => ?_,
        fun peace => absurd ⟨early, _, clash⟩ peace⟩
      · rw [error]
        rfl
      · have here : j = taken.length :=
          Nat.le_antisymm (least early _ clash) (clear.length_le_of_clash h)
        rw [here, List.getElem?_append_right (Nat.le_refl _), Nat.sub_self] at hlink
        cases hlink
        exact error

/-- The chain `a<b%c+d*e==f<g==h`: the first `==` lets `<` come again, and the second one clashes
with it. Without its end the chain is a comparison on both sides of an equality, and `%` takes the
whole sum on its right. -/
theorem operator_chain_splits_or_clashes_at_equality :
    let first : Atom := .name "a" ⟨1, 1⟩
    let links : List Link :=
      [⟨.less, ⟨1, 2⟩, .name "b" ⟨1, 3⟩, by decide⟩,
        ⟨.percent, ⟨1, 4⟩, .name "c" ⟨1, 5⟩, by decide⟩,
        ⟨.plus, ⟨1, 6⟩, .name "d" ⟨1, 7⟩, by decide⟩,
        ⟨.star, ⟨1, 8⟩, .name "e" ⟨1, 9⟩, by decide⟩,
        ⟨.equalEqual, ⟨1, 10⟩, .name "f" ⟨1, 12⟩, by decide⟩,
        ⟨.less, ⟨1, 13⟩, .name "g" ⟨1, 14⟩, by decide⟩]
    let last : Link := ⟨.equalEqual, ⟨1, 15⟩, .name "h" ⟨1, 17⟩, by decide⟩
    let bytes : List UInt8 := [97, 60, 98, 37, 99, 43, 100, 42, 101, 61, 61, 102, 60, 103]
    (Scan.ofBytes bytes).tokens = chainTokens first links ∧
      (Scan.ofBytes (bytes ++ [61, 61, 104])).tokens = chainTokens first (links ++ [last]) ∧
      (Parsed.ofBytes 0 bytes).tree = .root [.binary (.symbol .equalEqual)
        (.binary (.symbol .less) (.reference "a" (some ⟨1, 1⟩))
          (.binary (.symbol .percent) (.reference "b" (some ⟨1, 3⟩))
            (.binary (.symbol .plus) (.reference "c" (some ⟨1, 5⟩))
              (.binary (.symbol .star) (.reference "d" (some ⟨1, 7⟩))
                (.reference "e" (some ⟨1, 9⟩)) (some ⟨1, 7⟩)) (some ⟨1, 5⟩)) (some ⟨1, 3⟩))
          (some ⟨1, 1⟩))
        (.binary (.symbol .less) (.reference "f" (some ⟨1, 12⟩)) (.reference "g" (some ⟨1, 14⟩))
          (some ⟨1, 12⟩)) (some ⟨1, 1⟩)] (some ⟨1, 1⟩) ∧
      (Parsed.ofBytes 0 (bytes ++ [61, 61, 104])).error =
        some (.atToken .unexpectedToken last.token) := by
  intro first links last bytes
  have scanned : (Scan.ofBytes bytes).tokens = chainTokens first links := by decide +kernel
  have scanned' : (Scan.ofBytes (bytes ++ [61, 61, 104])).tokens =
      chainTokens first (links ++ [last]) := by
    decide +kernel
  have peace : ¬∃ i j, Clash links i j := by
    rintro ⟨i, j, clash⟩
    have inside : j < 6 := by
      obtain ⟨-, _, -, _, hj, -⟩ := clash
      exact (List.getElem?_eq_some_iff.mp hj).1
    have none : ∀ j < 6, ∀ i < j, ¬Clash links i j := by decide
    exact none j inside i clash.1 clash
  obtain ⟨-, -, accepted⟩ := operator_chain_splits_or_clashes 0 scanned
    (show (Scan.ofBytes bytes).ending = .finished ⟨1, 15⟩ by decide +kernel)
  obtain ⟨-, rejected, -⟩ := operator_chain_splits_or_clashes 0 scanned'
    (show (Scan.ofBytes (bytes ++ [61, 61, 104])).ending = .finished ⟨1, 18⟩ by decide +kernel)
  refine ⟨scanned, scanned', ?_, ?_⟩
  · obtain ⟨node, parsed, hnode⟩ := accepted peace
    have product := @SplitsTo.split links[2].operand [] [] links[3] _ _ (by simp) (by simp)
      (.atom _) (.atom _)
    have sum := @SplitsTo.split links[1].operand [] _ links[2] _ _ (by simp) (by decide) (.atom _)
      product
    have remainder := @SplitsTo.split links[0].operand [] _ links[1] _ _ (by simp) (by decide)
      (.atom _) sum
    have low := @SplitsTo.split first [] _ links[0] _ _ (by simp) (by decide) (.atom _) remainder
    have high := @SplitsTo.split links[4].operand [] [] links[5] _ _ (by simp) (by simp) (.atom _)
      (.atom _)
    have both := @SplitsTo.split _ _ _ links[4] _ _ (by decide) (by decide) low high
    rw [parsed, ← (hnode _).mp both]
    rfl
  · refine rejected 4 6 last (by decide) ?_ rfl
    intro i j clash
    have none : ∀ j < 6, ∀ i < j, ¬Clash (links ++ [last]) i j := by decide
    by_contra early
    exact none j (by omega) i clash.1 clash

end

end Scriptlet.Parser
