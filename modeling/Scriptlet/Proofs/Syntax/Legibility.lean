import Scriptlet.Proofs.Number.Literals
import Scriptlet.Proofs.Syntax.Expressions
import Scriptlet.Proofs.Syntax.Gist
import Scriptlet.Proofs.Text.Quoted

/-!
# Trees with one text are the same tree

The text of a tree can be read from the front: the label ends at the first parenthesis, the name of
a field at the first equals sign, and the first character of a value says what kind of value it is.
So the text and whatever follows it determine the label, the fields and, level by level, the nodes
below. Only positions are not shown, and an undefined number is not equal to itself.
-/

namespace Scriptlet

/-! ## Texts that are read from the front -/

namespace Text

/-- No character that would go on with a number comes next. -/
def Breaks (rest : List Char) : Prop := ∀ c ∈ rest.head?, Number.isNumeral c = false

theorem breaks_cons {c : Char} (h : Number.isNumeral c = false) (rest : List Char) :
    Breaks (c :: rest) := by
  intro d hd
  cases hd
  exact h

/-- Where the text of `a` stands at the front and the text of another one could stand instead, the
two are the same and so is the rest. -/
def Legible {α : Type} (P : α → Prop) (Same : α → α → Prop) (write : α → List Char) (a : α) :
    Prop :=
  ∀ b, P b → ∀ r s, Breaks r → Breaks s → write a ++ r = write b ++ s → Same a b ∧ r = s

theorem map_eq_of_forall₂ {α β : Type} {f : α → β} {xs ys : List α}
    (h : List.Forall₂ (fun x y => f x = f y) xs ys) : xs.map f = ys.map f := by
  rw [← List.forall₂_eq_eq_eq, List.forall₂_map_left_iff, List.forall₂_map_right_iff]
  exact h

theorem append_inj_of_run {p : Char → Bool} {a b r s : List Char} (ha : ∀ c ∈ a, p c = true)
    (hb : ∀ c ∈ b, p c = true) (hr : ∀ c ∈ r.head?, p c = false) (hs : ∀ c ∈ s.head?, p c = false)
    (h : a ++ r = b ++ s) : a = b ∧ r = s := by
  have run : ∀ {front rest : List Char}, (∀ c ∈ front, p c = true) →
      (∀ c ∈ rest.head?, p c = false) → (front ++ rest).takeWhile p = front := by
    intro front rest hfront hrest
    rw [List.takeWhile_append_of_pos hfront]
    cases rest with
    | nil => exact List.append_nil front
    | cons c rest => rw [List.takeWhile_cons_of_neg (by simp [hrest c rfl]), List.append_nil]
  have hab : a = b := by rw [← run ha hr, h, run hb hs]
  subst hab
  exact ⟨rfl, List.append_cancel_left h⟩

theorem legible_number {x : Float} (hx : x.isNaN = false) :
    Legible (fun y => y.isNaN = false) Eq Number.literalChars x := by
  intro y hy r s hr hs h
  obtain ⟨htext, hrest⟩ := append_inj_of_run (Number.isNumeral_literalChars hx)
    (Number.isNumeral_literalChars hy) hr hs h
  exact ⟨Number.literalChars_inj hx hy htext, hrest⟩

theorem toList_quoted (s : String) : (quoted s).toList = quotedChars s.toList :=
  String.toList_ofList

theorem legible_quoted (s : String) :
    Legible (fun _ => True) Eq (fun s => (quoted s).toList) s := by
  intro t _ r r' _ _ h
  simp only [toList_quoted] at h
  obtain ⟨htext, hrest⟩ := quotedChars_append_inj h
  exact ⟨String.toList_inj.mp htext, hrest⟩

theorem intercalate_cons (separator first : List Char) (rest : List (List Char)) :
    separator.intercalate (first :: rest) = first ++ rest.flatMap (separator ++ ·) := by
  induction rest generalizing first with
  | nil => rw [List.intercalate_singleton, List.flatMap_nil, List.append_nil]
  | cons second rest ih =>
      rw [List.intercalate_cons_cons, ih, List.flatMap_cons, List.append_assoc, List.append_assoc]

section

variable {α : Type} {P : α → Prop} {Same : α → α → Prop} {write : α → List Char}
  {comma close : Char} {gap : List Char}

theorem breaks_continuation (hcomma : Number.isNumeral comma = false)
    (hclose : Number.isNumeral close = false) (xs : List (List Char)) (r : List Char) :
    Breaks (xs.flatMap ((comma :: gap) ++ ·) ++ close :: r) := by
  cases xs with
  | nil => exact breaks_cons hclose r
  | cons x xs =>
      rw [List.flatMap_cons]
      exact breaks_cons hcomma _

theorem continuation_inj (hcomma : Number.isNumeral comma = false)
    (hclose : Number.isNumeral close = false) (hne : comma ≠ close) {xs ys : List α}
    {r s : List Char} (hxs : ∀ x ∈ xs, Legible P Same write x) (hys : ∀ y ∈ ys, P y)
    (h : (xs.map write).flatMap ((comma :: gap) ++ ·) ++ close :: r =
      (ys.map write).flatMap ((comma :: gap) ++ ·) ++ close :: s) :
    List.Forall₂ Same xs ys ∧ r = s := by
  induction xs generalizing ys with
  | nil =>
      cases ys with
      | nil => exact ⟨.nil, List.tail_eq_of_cons_eq h⟩
      | cons y ys => exact absurd (List.head_eq_of_cons_eq h).symm hne
  | cons x xs ih =>
      cases ys with
      | nil => exact absurd (List.head_eq_of_cons_eq h) hne
      | cons y ys =>
          simp only [List.map_cons, List.flatMap_cons, List.append_assoc] at h
          obtain ⟨hxy, hrest⟩ := hxs x List.mem_cons_self y (hys y List.mem_cons_self) _ _
            (breaks_continuation hcomma hclose _ r) (breaks_continuation hcomma hclose _ s)
            (List.append_cancel_left h)
          obtain ⟨hall, hend⟩ := ih (fun x hx => hxs x (List.mem_cons_of_mem _ hx))
            (fun y hy => hys y (List.mem_cons_of_mem _ hy)) hrest
          exact ⟨.cons hxy hall, hend⟩

/-- A list with separators is read item by item up to the character that closes it. -/
theorem intercalate_inj (hcomma : Number.isNumeral comma = false)
    (hclose : Number.isNumeral close = false) (hne : comma ≠ close)
    (hfirst : ∀ a, P a → ∀ r s, write a ++ r ≠ close :: s) {xs ys : List α} {r s : List Char}
    (hP : ∀ x ∈ xs, P x) (hxs : ∀ x ∈ xs, Legible P Same write x) (hys : ∀ y ∈ ys, P y)
    (h : (comma :: gap).intercalate (xs.map write) ++ close :: r =
      (comma :: gap).intercalate (ys.map write) ++ close :: s) :
    List.Forall₂ Same xs ys ∧ r = s := by
  cases xs with
  | nil =>
      cases ys with
      | nil => exact ⟨.nil, List.tail_eq_of_cons_eq h⟩
      | cons y ys =>
          rw [List.map_cons, intercalate_cons, List.append_assoc] at h
          exact absurd h.symm (hfirst y (hys y List.mem_cons_self) _ _)
  | cons x xs =>
      rw [List.map_cons, intercalate_cons, List.append_assoc] at h
      cases ys with
      | nil => exact absurd h (hfirst x (hP x List.mem_cons_self) _ _)
      | cons y ys =>
          rw [List.map_cons, intercalate_cons, List.append_assoc] at h
          obtain ⟨hxy, hrest⟩ := hxs x List.mem_cons_self y (hys y List.mem_cons_self) _ _
            (breaks_continuation hcomma hclose _ r) (breaks_continuation hcomma hclose _ s) h
          obtain ⟨hall, hend⟩ := continuation_inj hcomma hclose hne
            (fun x hx => hxs x (List.mem_cons_of_mem _ hx))
            (fun y hy => hys y (List.mem_cons_of_mem _ hy)) hrest
          exact ⟨.cons hxy hall, hend⟩

end

end Text

/-! ## Attributes -/

namespace Attribute

open Text

/-- Whether the attribute is equal to itself: an undefined number is not. -/
def Defined : Attribute → Prop
  | .number x => x.isNaN = false
  | _ => True

/-- What kind of value begins with a character: a number, a text, names, a truth value, a list of
nodes, or nothing. -/
def sortOf (c : Char) : Nat :=
  if Number.isNumeral c then 0
  else if c = '\'' ∨ c = '"' then 1
  else if c = '(' then 2
  else if c = 'T' ∨ c = 'F' then 3
  else if c = '[' then 4
  else 5

def sort : Attribute → Nat
  | .number _ => 0
  | .text _ => 1
  | .names _ => 2
  | .boolean _ => 3
  | .absent => 5

theorem toList_namesText_singleton (name : String) :
    (namesText [name]).toList = '(' :: ((quoted name).toList ++ [',', ')']) := by
  simp [namesText]

theorem toList_namesText (names : List String) (h : names.length ≠ 1) :
    (namesText names).toList =
      '(' :: ([',', ' '].intercalate (names.map fun name => (quoted name).toList) ++ [')']) := by
  cases names with
  | nil => simp [namesText]
  | cons first rest =>
      cases rest with
      | nil => exact absurd rfl h
      | cons second rest => simp [namesText, String.toList_intercalate, Function.comp_def]

theorem sortOf_quote {c : Char} (h : IsQuote c) : sortOf c = 1 := by
  rcases h with rfl | rfl <;> decide

theorem exists_first (a : Attribute) (h : a.Defined) :
    ∃ c rest, a.display.toList = c :: rest ∧ sortOf c = a.sort := by
  cases a with
  | number x =>
      obtain ⟨c, rest, hchars, hnumeral⟩ := Number.exists_numeral h
      exact ⟨c, rest, String.toList_ofList.trans hchars, if_pos hnumeral⟩
  | boolean b => cases b <;> exact ⟨_, _, rfl, rfl⟩
  | text s =>
      obtain ⟨quote, rest, hquote, hchars⟩ := exists_quotedChars s.toList
      exact ⟨quote, rest, (toList_quoted s).trans hchars, sortOf_quote hquote⟩
  | names list =>
      by_cases hone : list.length = 1
      · obtain ⟨name, rfl⟩ := List.length_eq_one_iff.mp hone
        exact ⟨_, _, toList_namesText_singleton name, rfl⟩
      · exact ⟨_, _, toList_namesText list hone, rfl⟩
  | absent => exact ⟨_, _, rfl, rfl⟩

theorem quoted_ne_of_sort {c : Char} (hc : sortOf c ≠ 1) (s : String) (r t : List Char) :
    (quoted s).toList ++ r ≠ c :: t := by
  obtain ⟨quote, rest, hquote, hchars⟩ := exists_quotedChars s.toList
  rw [toList_quoted, hchars]
  intro h
  obtain ⟨rfl, -⟩ := List.cons.inj h
  exact hc (sortOf_quote hquote)

/-- A single name has its comma before the parenthesis, the first of several before a blank. -/
theorem namesText_singleton_ne (name : String) {names : List String} (h : names.length ≠ 1)
    (r s : List Char) : (namesText [name]).toList ++ r ≠ (namesText names).toList ++ s := by
  intro heq
  simp only [toList_namesText_singleton, toList_namesText names h, List.cons_append,
    List.append_assoc, List.cons.injEq, true_and, List.nil_append] at heq
  cases names with
  | nil => exact quoted_ne_of_sort (by decide) name _ _ heq
  | cons first rest =>
      cases rest with
      | nil => exact h rfl
      | cons second rest =>
          rw [List.map_cons, intercalate_cons, List.append_assoc] at heq
          obtain ⟨-, hrest⟩ := legible_quoted name first trivial _ _ (breaks_cons rfl _)
            (breaks_cons rfl _) heq
          simp at hrest

theorem legible_names (names : List String) :
    Legible (fun _ => True) Eq (fun names => (namesText names).toList) names := by
  intro names' _ r s _ _ h
  by_cases hone : names.length = 1
  · obtain ⟨name, rfl⟩ := List.length_eq_one_iff.mp hone
    by_cases hone' : names'.length = 1
    · obtain ⟨name', rfl⟩ := List.length_eq_one_iff.mp hone'
      simp only [toList_namesText_singleton, List.cons_append, List.append_assoc,
        List.cons.injEq, true_and, List.nil_append] at h
      obtain ⟨rfl, hrest⟩ := legible_quoted name name' trivial _ _ (breaks_cons rfl _)
        (breaks_cons rfl _) h
      exact ⟨rfl, (List.cons.inj (List.cons.inj hrest).2).2⟩
    · exact absurd h (namesText_singleton_ne name hone' r s)
  · by_cases hone' : names'.length = 1
    · obtain ⟨name', rfl⟩ := List.length_eq_one_iff.mp hone'
      exact absurd h.symm (namesText_singleton_ne name' hone s r)
    · simp only [toList_namesText names hone, toList_namesText names' hone', List.cons_append,
        List.append_assoc, List.cons.injEq, true_and, List.nil_append] at h
      obtain ⟨hall, hrest⟩ := intercalate_inj rfl rfl (by decide)
        (fun name _ r s => quoted_ne_of_sort (by decide) name r s) (fun _ _ => trivial)
        (fun name _ => legible_quoted name) (fun _ _ => trivial) h
      exact ⟨List.forall₂_eq_eq_eq ▸ hall, hrest⟩

theorem legible {a : Attribute} (ha : a.Defined) :
    Legible Defined Eq (fun a => a.display.toList) a := by
  intro b hb r s hr hs h
  obtain ⟨c, rest, hchars, hsort⟩ := a.exists_first ha
  obtain ⟨c', rest', hchars', hsort'⟩ := b.exists_first hb
  -- the first characters agree, so both are values of one kind
  have hsame : a.sort = b.sort := by
    simp only [hchars, hchars', List.cons_append, List.cons.injEq] at h
    rw [← hsort, ← hsort', h.1]
  cases a with
  | number x =>
      cases b with
      | number y =>
          simp only [display, Number.literal, String.toList_ofList] at h
          obtain ⟨rfl, hrest⟩ := legible_number ha y hb r s hr hs h
          exact ⟨rfl, hrest⟩
      | _ => cases hsame
  | boolean v =>
      cases b with
      | boolean v' =>
          -- the two words differ in their first letter
          cases v with
          | true =>
              cases v' with
              | true => exact ⟨rfl, List.append_cancel_left h⟩
              | false => exact absurd (List.cons.inj h).1 (by decide)
          | false =>
              cases v' with
              | true => exact absurd (List.cons.inj h).1 (by decide)
              | false => exact ⟨rfl, List.append_cancel_left h⟩
      | _ => cases hsame
  | text t =>
      cases b with
      | text t' =>
          obtain ⟨rfl, hrest⟩ := legible_quoted t t' trivial r s hr hs h
          exact ⟨rfl, hrest⟩
      | _ => cases hsame
  | names list =>
      cases b with
      | names list' =>
          obtain ⟨rfl, hrest⟩ := legible_names list list' trivial r s hr hs h
          exact ⟨rfl, hrest⟩
      | _ => cases hsame
  | absent =>
      cases b with
      | absent => exact ⟨rfl, List.append_cancel_left h⟩
      | _ => cases hsame

end Attribute

/-! ## Operators -/

namespace Kind

theorem mem_all (k : Kind) : k ∈ all := by
  cases k with
  | symbol s => cases s <;> decide
  | _ => decide

theorem nodup_text : (all.map text).Nodup := by decide +kernel

theorem text_inj {k k' : Kind} (h : k.text = k'.text) : k = k' :=
  List.inj_on_of_nodup_map nodup_text k.mem_all k'.mem_all h

def ofText (text : String) : Kind := (all.find? fun k => k.text == text).getD .number

theorem ofText_text (k : Kind) : ofText k.text = k := by
  unfold ofText
  cases hfind : all.find? fun k' => k'.text == k.text with
  | none =>
      have hne := List.find?_eq_none.mp hfind k k.mem_all
      rw [beq_self_eq_true] at hne
      exact absurd rfl hne
  | some k' =>
      have htext := List.find?_some hfind
      exact text_inj (beq_iff_eq.mp htext)

end Kind

/-! ## The text of a tree -/

namespace Node

open Text

def indentationChars (level : Nat) : List Char := List.replicate (4 * level) ' '

/-- The field that holds the nodes below, if there are any. -/
def nodesField (level : Nat) : List (List Char) → List (List Char)
  | [] => []
  | texts =>
      ["nodes".toList ++ '=' :: '[' :: '\n' :: ([',', '\n'].intercalate texts ++
        '\n' :: (indentationChars level ++ [']']))]

def layout (level : Nat) (label : String) (attributes : List (String × Attribute))
    (texts : List (List Char)) : List Char :=
  indentationChars level ++ (label.toList ++ '(' :: ([',', ' '].intercalate
    (attributes.map (fun entry => entry.1.toList ++ '=' :: entry.2.display.toList) ++
      nodesField level texts) ++ [')']))

/-- The text of a tree however many levels it has. -/
def textChars (level : Nat) (node : Node) : List Char :=
  layout level node.label node.attributes
    (node.children.attach.map fun child => textChars (level + 1) child.1)
termination_by node
decreasing_by exact sizeOf_lt_of_mem_children child.2

theorem textChars_eq (level : Nat) (node : Node) :
    textChars level node =
      layout level node.label node.attributes (node.children.map (textChars (level + 1))) := by
  rw [textChars, List.attach_map_val (f := textChars (level + 1))]

theorem map_of_allSome {α β γ : Type} {f : α → Option β} {g : β → γ} {k : α → γ}
    (hfk : ∀ a b, f a = some b → g b = k a) {xs : List α} {ys : List β}
    (h : allSome (xs.map f) = some ys) : ys.map g = xs.map k := by
  induction xs generalizing ys with
  | nil =>
      cases h
      rfl
  | cons x xs ih =>
      rw [List.map_cons] at h
      cases hx : f x with
      | none =>
          rw [hx] at h
          cases h
      | some y =>
          rw [hx] at h
          obtain ⟨rest, hrest, rfl⟩ := Option.map_eq_some_iff.mp h
          rw [List.map_cons, List.map_cons, hfk x y hx, ih hrest]

theorem toList_attributesText (attributes : List (String × Attribute)) :
    (attributesText attributes).toList = [',', ' '].intercalate
      (attributes.map fun entry => entry.1.toList ++ '=' :: entry.2.display.toList) := by
  simp only [attributesText, String.toList_intercalate, List.map_map, Function.comp_def,
    String.toList_append, List.append_assoc]
  rfl

theorem isEmpty_attributesText (attributes : List (String × Attribute)) :
    (attributesText attributes).isEmpty = attributes.isEmpty := by
  cases attributes with
  | nil => rfl
  | cons entry rest =>
      have hne : attributesText (entry :: rest) ≠ "" := by
        intro hempty
        have hchars := toList_attributesText (entry :: rest)
        rw [hempty, List.map_cons, intercalate_cons] at hchars
        simp at hchars
      rw [List.isEmpty_cons]
      exact Bool.eq_false_iff.mpr fun h => hne (String.isEmpty_iff.mp h)

theorem toList_indentation (level : Nat) : (indentation level).toList = indentationChars level :=
  String.toList_ofList

theorem layout_of_nodes (level : Nat) (label : String) (attributes : List (String × Attribute))
    (texts : List (List Char)) (h : texts ≠ []) :
    layout level label attributes texts =
      indentationChars level ++ (label.toList ++ '(' :: ((attributesText attributes).toList ++
        ((if (attributesText attributes).isEmpty then "" else ", ").toList ++
          ("nodes=[\n".toList ++ ([',', '\n'].intercalate texts ++
            '\n' :: (indentationChars level ++ [']', ')'])))))) := by
  have hfield : nodesField level texts = ["nodes".toList ++ '=' :: '[' :: '\n' ::
      ([',', '\n'].intercalate texts ++ '\n' :: (indentationChars level ++ [']']))] := by
    cases texts with
    | nil => exact absurd rfl h
    | cons => rfl
  rw [layout, hfield, isEmpty_attributesText, toList_attributesText]
  cases attributes with
  | nil => simp
  | cons entry rest =>
      rw [List.map_cons, List.cons_append, intercalate_cons, intercalate_cons]
      simp

theorem toList_displayFrom {limit level : Nat} {node : Node} {text : String}
    (h : displayFrom limit level node = some text) : text.toList = textChars level node := by
  induction limit generalizing level node text with
  | zero => cases h
  | succ limit ih =>
      rw [textChars_eq]
      simp only [displayFrom] at h
      split at h
      · cases h
      · next hall =>
          have htexts := map_of_allSome (fun child text hchild => ih hchild) hall
          rw [← htexts]
          cases h
          simp [layout, nodesField, toList_indentation, toList_attributesText]
      · next texts hne hall =>
          have htexts := map_of_allSome (fun child text hchild => ih hchild) hall
          rw [← htexts, layout_of_nodes _ _ _ _ (by simpa using hne)]
          cases h
          simp [toList_indentation, String.toList_intercalate]

end Node

/-! ## Fields -/

/-- What a field of a node holds. -/
inductive Content where
  | plain (value : Attribute)
  | nodes (list : List Node)

namespace Node

/-- A node of the language that is equal to itself: an undefined number is not. -/
def Proper : Node → Prop
  | .number x _ => x.isNaN = false
  | .blank => False
  | _ => True

def fieldsOf (attributes : List (String × Attribute)) (children : List Node) :
    List (String × Content) :=
  attributes.map (fun entry => (entry.1, .plain entry.2)) ++
    if children.isEmpty then [] else [("nodes", .nodes children)]

def fields (n : Node) : List (String × Content) := fieldsOf n.attributes n.children

end Node

namespace Content

open Text Node

def chars (level : Nat) : Content → List Char
  | .plain value => value.display.toList
  | .nodes list => '[' :: '\n' :: ([',', '\n'].intercalate (list.map (textChars (level + 1))) ++
      '\n' :: (indentationChars level ++ [']']))

def Defined : Content → Prop
  | .plain value => value.Defined
  | .nodes list => ∀ n ∈ list, Everywhere Proper n

/-- The same content without positions. -/
def bare : Content → Content
  | .plain value => .plain value
  | .nodes list => .nodes (list.map Node.bare)

def sort : Content → Nat
  | .plain value => value.sort
  | .nodes _ => 4

theorem exists_first (level : Nat) {c : Content} (h : c.Defined) :
    ∃ d rest, c.chars level = d :: rest ∧ Attribute.sortOf d = c.sort := by
  cases c with
  | plain value => exact value.exists_first h
  | nodes list => exact ⟨_, _, rfl, rfl⟩

theorem sort_plain_ne (value : Attribute) (list : List Node) :
    sort (.plain value) ≠ sort (.nodes list) := by
  intro h
  cases value <;> cases h

theorem textChars_succ_ne (level : Nat) (n : Node) (r s : List Char) :
    textChars (level + 1) n ++ r ≠ '\n' :: s := by
  rw [textChars_eq, layout, indentationChars, Nat.mul_succ, List.replicate_succ]
  intro h
  exact absurd (List.head_eq_of_cons_eq h) (by decide)

theorem legible {level : Nat} {c : Content} (hc : c.Defined)
    (hnodes : ∀ list, c = .nodes list → ∀ n ∈ list,
      Legible (Everywhere Proper) SameShape (textChars (level + 1)) n) :
    Legible Defined (fun c c' => c.bare = c'.bare) (chars level) c := by
  intro c' hc' r s hr hs h
  obtain ⟨d, rest, hchars, hsort⟩ := exists_first level hc
  obtain ⟨d', rest', hchars', hsort'⟩ := exists_first level hc'
  have hsame : c.sort = c'.sort := by
    simp only [hchars, hchars', List.cons_append, List.cons.injEq] at h
    rw [← hsort, ← hsort', h.1]
  cases c with
  | plain value =>
      cases c' with
      | plain value' =>
          obtain ⟨rfl, hrest⟩ := Attribute.legible hc value' hc' r s hr hs h
          exact ⟨rfl, hrest⟩
      | nodes list' => exact absurd hsame (sort_plain_ne value list')
  | nodes list =>
      cases c' with
      | plain value' => exact absurd hsame.symm (sort_plain_ne value' list)
      | nodes list' =>
          simp only [chars, List.cons_append, List.append_assoc, List.cons.injEq, true_and] at h
          obtain ⟨hall, hrest⟩ := intercalate_inj rfl rfl (by decide)
            (fun n _ r s => textChars_succ_ne level n r s) hc (hnodes list rfl) hc' h
          exact ⟨congrArg nodes (map_eq_of_forall₂ hall), by simpa using hrest⟩

end Content

namespace Node

open Text

def fieldChars (level : Nat) (field : String × Content) : List Char :=
  field.1.toList ++ '=' :: field.2.chars level

theorem textChars_fields (level : Nat) (n : Node) :
    textChars level n = indentationChars level ++ (n.label.toList ++ '(' ::
      ([',', ' '].intercalate (n.fields.map (fieldChars level)) ++ [')'])) := by
  have hnodes : nodesField level (n.children.map (textChars (level + 1))) =
      (if n.children.isEmpty then [] else [("nodes", Content.nodes n.children)]).map
        (fieldChars level) := by
    cases n.children <;> rfl
  rw [textChars_eq, layout, hnodes, fields, fieldsOf, List.map_append, List.map_map]
  rfl

def bareField (field : String × Content) : String × Content := (field.1, field.2.bare)

/-- The name ends at the first equals sign, and a list of fields before a parenthesis. -/
def FieldDefined (field : String × Content) : Prop :=
  '=' ∉ field.1.toList ∧ ')' ∉ field.1.toList ∧ field.2.Defined

theorem fieldChars_ne {field : String × Content} (h : FieldDefined field) (level : Nat)
    (r s : List Char) : fieldChars level field ++ r ≠ ')' :: s := by
  intro heq
  rw [fieldChars, List.append_assoc] at heq
  cases hname : field.1.toList with
  | nil =>
      rw [hname] at heq
      exact absurd (List.head_eq_of_cons_eq heq) (by decide)
  | cons c rest =>
      rw [hname] at heq
      apply h.2.1
      rw [hname, List.head_eq_of_cons_eq heq]
      exact List.mem_cons_self

theorem append_inj_of_not_mem {mark : Char} {a b r s : List Char} (ha : mark ∉ a) (hb : mark ∉ b)
    (h : a ++ mark :: r = b ++ mark :: s) : a = b ∧ r = s := by
  have run : ∀ {front : List Char}, mark ∉ front → ∀ c ∈ front, (c != mark) = true := by
    intro front hfront c hc
    rw [bne_iff_ne]
    intro heq
    exact hfront (heq ▸ hc)
  have stop : ∀ rest : List Char, ∀ c ∈ (mark :: rest).head?, (c != mark) = false := by
    intro rest c hc
    cases hc
    exact bne_self_eq_false mark
  obtain ⟨hfront, hrest⟩ := append_inj_of_run (run ha) (run hb) (stop r) (stop s) h
  exact ⟨hfront, List.tail_eq_of_cons_eq hrest⟩

theorem legible_field {level : Nat} {field : String × Content} (h : FieldDefined field)
    (hnodes : ∀ list, field.2 = .nodes list → ∀ n ∈ list,
      Legible (Everywhere Proper) SameShape (textChars (level + 1)) n) :
    Legible FieldDefined (fun f f' => bareField f = bareField f') (fieldChars level) field := by
  intro field' h' r s hr hs heq
  simp only [fieldChars, List.append_assoc, List.cons_append] at heq
  obtain ⟨hname, hrest⟩ := append_inj_of_not_mem h.1 h'.1 heq
  obtain ⟨hcontent, hend⟩ := Content.legible h.2.2 hnodes field'.2 h'.2.2 r s hr hs hrest
  exact ⟨Prod.ext (String.toList_inj.mp hname) hcontent, hend⟩

theorem not_mem_label (n : Node) : '(' ∉ n.label.toList := by
  cases n <;> simp [label]

theorem Proper.attributes {n : Node} (h : n.Proper) :
    ∀ entry ∈ n.attributes,
      '=' ∉ entry.1.toList ∧ ')' ∉ entry.1.toList ∧ entry.2.Defined := by
  cases n with
  | root xs | block xs | call _ xs => cases xs <;> simp [Node.attributes, Attribute.Defined]
  | number x =>
      intro entry hentry
      obtain rfl := List.mem_singleton.mp hentry
      exact ⟨by simp, by simp, h⟩
  | _ => simp [Node.attributes, Attribute.Defined]

theorem fieldDefined_of_mem {n : Node} (h : Everywhere Proper n) :
    ∀ field ∈ n.fields, FieldDefined field := by
  obtain ⟨here, below⟩ := everywhere_iff.mp h
  intro field hfield
  rcases List.mem_append.mp hfield with hfield | hfield
  · obtain ⟨entry, hentry, rfl⟩ := List.mem_map.mp hfield
    exact here.attributes entry hentry
  · split at hfield
    · cases hfield
    · obtain rfl := List.mem_singleton.mp hfield
      exact ⟨by simp, by simp, below⟩

/-! ## Nodes from their fields -/

/-- The nodes that one of the fields holds. -/
def nodesOf : List (String × Content) → List Node
  | [] => []
  | (_, .nodes list) :: _ => list
  | (_, .plain _) :: rest => nodesOf rest

/-- Put a node together again. -/
def assemble (label : String) (fields : List (String × Content)) : Node :=
  match label, fields.map Prod.snd with
  | "ProgramRoot", _ => .root (nodesOf fields) none
  | "Program", _ => .block (nodesOf fields) none
  | "NumberLiteral", [.plain (.number x)] => .number x none
  | "BooleanLiteral", [.plain (.boolean b)] => .boolean b none
  | "StringLiteral", [.plain (.text s)] => .string s none
  | "NilLiteral", _ => .nil none
  | "Identifier", [.plain (.text name)] => .reference name none
  | "Grouping", [.nodes [x]] => .group x none
  | "UnaryExpr", [.plain (.text o), .nodes [x]] => .unary (Kind.ofText o) x none
  | "BinaryExpr", [.plain (.text o), .nodes [x, y]] => .binary (Kind.ofText o) x y none
  | "Assignment", [.plain (.text name), .plain (.boolean outer), .nodes [x]] =>
      .assign name x outer none
  | "IfStmt", [.plain .absent, .nodes [c, x]] => .ifThen c x none
  | "IfStmt", [.nodes [c, x, y]] => .ifElse c x y none
  | "WhileStmt", [.nodes [c, x]] => .whileLoop c x none
  | "FnStmt", [.plain (.text name), .plain (.names params), .nodes [x]] =>
      .function name params x none
  | "FnCall", .plain (.text name) :: _ => .call name (nodesOf fields) none
  | "RetStmt", [.nodes [x]] => .ret x none
  | _, _ => .blank

theorem assemble_bare (n : Node) : assemble n.bare.label n.bare.fields = n.bare := by
  cases n with
  | root xs | block xs | call _ xs => cases xs <;> rfl
  | unary operator x => exact congrArg (fun o => unary o x.bare none) operator.ofText_text
  | binary operator x y =>
      exact congrArg (fun o => binary o x.bare y.bare none) operator.ofText_text
  | _ => rfl

theorem fields_bare (n : Node) : n.bare.fields = n.fields.map bareField := by
  rw [fields, fields, fieldsOf, fieldsOf, attributes_bare, children_bare, List.map_append,
    List.map_map, List.isEmpty_map]
  congr 1
  split <;> rfl

/-- A node is determined by its label and its fields. -/
theorem sameShape_of_fields {n n' : Node} (hlabel : n.label = n'.label)
    (hfields : List.Forall₂ (fun f f' => bareField f = bareField f') n.fields n'.fields) :
    SameShape n n' := by
  calc n.bare
    _ = assemble n.bare.label n.bare.fields := (assemble_bare n).symm
    _ = assemble n'.bare.label n'.bare.fields := by
      rw [label_bare, label_bare, hlabel, fields_bare, fields_bare, map_eq_of_forall₂ hfields]
    _ = n'.bare := assemble_bare n'

theorem children_of_field {n : Node} {field : String × Content} (hfield : field ∈ n.fields)
    {list : List Node} (hlist : field.2 = .nodes list) : list = n.children := by
  rcases List.mem_append.mp hfield with hfield | hfield
  · obtain ⟨entry, -, rfl⟩ := List.mem_map.mp hfield
    cases hlist
  · split at hfield
    · cases hfield
    · obtain rfl := List.mem_singleton.mp hfield
      cases hlist
      rfl

/-- The text of a tree determines the tree and what follows. -/
theorem legible {n : Node} (proper : Everywhere Proper n) (level : Nat) :
    Legible (Everywhere Proper) SameShape (textChars level) n := by
  induction n using induction_children generalizing level with
  | step n ih =>
      intro n' proper' r s hr hs h
      simp only [textChars_fields, List.append_assoc, List.cons_append] at h
      obtain ⟨hlabel, hrest⟩ := append_inj_of_not_mem n.not_mem_label n'.not_mem_label
        (List.append_cancel_left h)
      have hfields : ∀ field ∈ n.fields, Legible FieldDefined
          (fun f f' => bareField f = bareField f') (fieldChars level) field := by
        intro field hfield
        apply legible_field (fieldDefined_of_mem proper field hfield)
        intro list hlist child hchild
        rw [children_of_field hfield hlist] at hchild
        exact ih child hchild ((everywhere_iff.mp proper).2 child hchild) (level + 1)
      obtain ⟨hall, hend⟩ := intercalate_inj rfl rfl (by decide)
        (fun field hfield r s => fieldChars_ne hfield level r s) (fieldDefined_of_mem proper)
        hfields (fieldDefined_of_mem proper') hrest
      exact ⟨sameShape_of_fields (String.toList_inj.mp hlabel) hall, hend⟩

/-! ## Equality -/

theorem beq_self_of_not_isNaN {x : Float} (h : x.isNaN = false) : (x == x) = true := by
  change x.toModel.unpack.beq x.toModel.unpack = true
  change x.toModel.unpack.isNaN = false at h
  cases hunpack : x.toModel.unpack with
  | notANumber =>
      rw [hunpack] at h
      cases h
  | infinity sign => cases sign <;> rfl
  | zero sign => cases sign <;> rfl
  | finite sign mantissa exponent pos =>
      cases sign <;> simp [Float.Model.UnpackedFloat.beq, Float.Model.UnpackedFloat.compare]

theorem equalsAll_of_sameShapes {xs ys : List Node}
    (hxs : ∀ x ∈ xs, ∀ y, SameShape x y → x.equals y = true) (same : SameShapes xs ys) :
    equalsAll xs ys = true := by
  induction xs generalizing ys with
  | nil =>
      cases ys with
      | nil => rfl
      | cons y ys => cases same
  | cons x xs ih =>
      cases ys with
      | nil => cases same
      | cons y ys =>
          obtain ⟨hxy, hrest⟩ := List.cons.inj same
          rw [equalsAll, hxs x List.mem_cons_self y hxy,
            ih (fun x hx => hxs x (List.mem_cons_of_mem _ hx)) hrest, Bool.and_self]

/-- Trees that differ only in positions are equal. -/
theorem equals_of_sameShape {n n' : Node} (proper : Everywhere Proper n) (same : SameShape n n') :
    n.equals n' = true := by
  induction n using induction_children generalizing n' with
  | step n ih =>
      obtain ⟨here, below⟩ := everywhere_iff.mp proper
      replace ih : ∀ child ∈ n.children, ∀ m, SameShape child m → child.equals m = true :=
        fun child hchild m => ih child hchild (below child hchild)
      cases n with
      | root xs =>
          cases n' with
          | root ys => exact equalsAll_of_sameShapes ih (Node.root.inj same).1
          | _ => cases same
      | block xs =>
          cases n' with
          | block ys => exact equalsAll_of_sameShapes ih (Node.block.inj same).1
          | _ => cases same
      | number x =>
          cases n' with
          | number y =>
              obtain ⟨rfl, -⟩ := Node.number.inj same
              exact beq_self_of_not_isNaN here
          | _ => cases same
      | boolean b =>
          cases n' with
          | boolean b' =>
              obtain ⟨rfl, -⟩ := Node.boolean.inj same
              exact beq_self_eq_true b
          | _ => cases same
      | string s =>
          cases n' with
          | string s' =>
              obtain ⟨rfl, -⟩ := Node.string.inj same
              exact beq_self_eq_true s
          | _ => cases same
      | nil =>
          cases n' with
          | nil => rfl
          | _ => cases same
      | reference name =>
          cases n' with
          | reference name' =>
              obtain ⟨rfl, -⟩ := Node.reference.inj same
              exact beq_self_eq_true name
          | _ => cases same
      | group x =>
          cases n' with
          | group y => exact ih x (by simp [children]) y (Node.group.inj same).1
          | _ => cases same
      | unary operator x =>
          cases n' with
          | unary operator' y =>
              obtain ⟨rfl, hx, -⟩ := Node.unary.inj same
              simp [equals, ih x (by simp [children]) y hx]
          | _ => cases same
      | binary operator x y =>
          cases n' with
          | binary operator' x' y' =>
              obtain ⟨rfl, hx, hy, -⟩ := Node.binary.inj same
              simp [equals, ih x (by simp [children]) x' hx, ih y (by simp [children]) y' hy]
          | _ => cases same
      | assign name x outer =>
          cases n' with
          | assign name' x' outer' =>
              obtain ⟨rfl, hx, rfl, -⟩ := Node.assign.inj same
              simp [equals, ih x (by simp [children]) x' hx]
          | _ => cases same
      | ifThen c x =>
          cases n' with
          | ifThen c' x' =>
              obtain ⟨hc, hx, -⟩ := Node.ifThen.inj same
              simp [equals, ih c (by simp [children]) c' hc, ih x (by simp [children]) x' hx]
          | _ => cases same
      | ifElse c x y =>
          cases n' with
          | ifElse c' x' y' =>
              obtain ⟨hc, hx, hy, -⟩ := Node.ifElse.inj same
              simp [equals, ih c (by simp [children]) c' hc, ih x (by simp [children]) x' hx,
                ih y (by simp [children]) y' hy]
          | _ => cases same
      | whileLoop c x =>
          cases n' with
          | whileLoop c' x' =>
              obtain ⟨hc, hx, -⟩ := Node.whileLoop.inj same
              simp [equals, ih c (by simp [children]) c' hc, ih x (by simp [children]) x' hx]
          | _ => cases same
      | function name params x =>
          cases n' with
          | function name' params' x' =>
              obtain ⟨rfl, rfl, hx, -⟩ := Node.function.inj same
              simp [equals, ih x (by simp [children]) x' hx]
          | _ => cases same
      | call name xs =>
          cases n' with
          | call name' ys =>
              obtain ⟨rfl, hxs, -⟩ := Node.call.inj same
              have hall : equalsAll xs ys = true := equalsAll_of_sameShapes ih hxs
              simp [equals, hall]
          | _ => cases same
      | ret x =>
          cases n' with
          | ret y => exact ih x (by simp [children]) y (Node.ret.inj same).1
          | _ => cases same
      | blank => exact here.elim

/-! ## Every tree has a text -/

theorem exists_bound {P : Nat → Node → Prop} {xs : List Node}
    (h : ∀ x ∈ xs, ∃ bound, ∀ limit, bound ≤ limit → P limit x) :
    ∃ bound, ∀ limit, bound ≤ limit → ∀ x ∈ xs, P limit x := by
  induction xs with
  | nil => exact ⟨0, fun _ _ _ hx => absurd hx List.not_mem_nil⟩
  | cons x xs ih =>
      obtain ⟨first, hfirst⟩ := h x List.mem_cons_self
      obtain ⟨bound, hbound⟩ := ih fun x hx => h x (List.mem_cons_of_mem _ hx)
      refine ⟨max first bound, ?_⟩
      intro limit hlimit
      refine List.forall_mem_cons.mpr ⟨hfirst limit ?_, hbound limit ?_⟩
      · omega
      · omega

theorem exists_allSome {α β : Type} {f : α → Option β} {xs : List α}
    (h : ∀ x ∈ xs, ∃ y, f x = some y) : ∃ ys, allSome (xs.map f) = some ys := by
  induction xs with
  | nil => exact ⟨[], rfl⟩
  | cons x xs ih =>
      obtain ⟨y, hy⟩ := h x List.mem_cons_self
      obtain ⟨ys, hys⟩ := ih fun x hx => h x (List.mem_cons_of_mem _ hx)
      refine ⟨y :: ys, ?_⟩
      rw [List.map_cons, hy, allSome, hys, Option.map_some]

/-- With enough levels a tree has a text. -/
theorem exists_displayFrom (n : Node) :
    ∃ bound, ∀ limit, bound ≤ limit → ∀ level, ∃ text, displayFrom limit level n = some text := by
  induction n using induction_children with
  | step n ih =>
      obtain ⟨bound, hbound⟩ := exists_bound ih
      refine ⟨bound + 1, ?_⟩
      intro limit hlimit level
      obtain ⟨limit, rfl⟩ : ∃ k, limit = k + 1 := ⟨limit - 1, by omega⟩
      obtain ⟨texts, htexts⟩ := exists_allSome fun child hchild =>
        hbound limit (by omega) child hchild (level + 1)
      simp only [displayFrom, htexts]
      cases texts with
      | nil => exact ⟨_, rfl⟩
      | cons => exact ⟨_, rfl⟩

/-- The text of a tree is unambiguous. Every tree has one, and a tree with the same text, however
many levels either may have, differs from it in positions only. -/
theorem display_unambiguous {tree tree' : Node} (proper : Everywhere Proper tree)
    (proper' : Everywhere Proper tree') :
    (∃ limit text, tree.display limit = some text) ∧
      ∀ {limit limit' : Nat} {text : String}, tree.display limit = some text →
        tree'.display limit' = some text → SameShape tree tree' ∧ tree.equals tree' = true := by
  constructor
  · obtain ⟨bound, hbound⟩ := exists_displayFrom tree
    obtain ⟨text, htext⟩ := hbound bound le_rfl 0
    exact ⟨bound, text, htext⟩
  · intro limit limit' text h h'
    have hchars : textChars 0 tree ++ [] = textChars 0 tree' ++ [] := by
      rw [← toList_displayFrom h, ← toList_displayFrom h']
    have breaks : Breaks [] := by
      intro c hc
      cases hc
    obtain ⟨same, -⟩ := legible proper 0 tree' proper' [] [] breaks breaks hchars
    exact ⟨same, equals_of_sameShape proper same⟩

theorem display_unambiguous_quoted :
    ∃ (name : String) (tree tree' : Node) (text : String),
      -- a name that looks like the end of its field and the start of the next one
      name = "x', is_nonlocal=True" ∧
      tree = .root [.assign name (.number 0.5 none) false none] none ∧
      tree' = .root [.assign name (.number 0.5 none) false (some ⟨1, 2⟩)] (some ⟨3, 4⟩) ∧
      Everywhere Proper tree ∧ Everywhere Proper tree' ∧
      tree.display 3 = some text ∧ tree'.display 3 = some text ∧
      SameShape tree tree' ∧ tree.equals tree' = true := by
  have half : (0.5 : Float).isNaN = false := by decide
  have leaf : Everywhere Proper (.number 0.5 none) := by
    refine .mk half ?_
    intro child hchild
    cases hchild
  have proper : ∀ name p q,
      Everywhere Proper (.root [.assign name (.number 0.5 none) false p] q) := by
    intro name p q
    exact .mk trivial (List.forall_mem_singleton.mpr
      (.mk trivial (List.forall_mem_singleton.mpr leaf)))
  have shown : ∀ name p q p' q',
      ∃ text, display 3 (.root [.assign name (.number 0.5 none) false p] q) = some text ∧
        display 3 (.root [.assign name (.number 0.5 none) false p'] q') = some text :=
    fun name p q p' q' => ⟨_, rfl, rfl⟩
  obtain ⟨text, h, h'⟩ := shown "x', is_nonlocal=True" none none (some ⟨1, 2⟩) (some ⟨3, 4⟩)
  exact ⟨_, _, _, text, rfl, rfl, rfl, proper _ _ _, proper _ _ _, h, h',
    (display_unambiguous (proper _ _ _) (proper _ _ _)).2 h h'⟩

end Node

end Scriptlet
