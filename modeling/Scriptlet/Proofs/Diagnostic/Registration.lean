import Scriptlet.Proofs.Session.Queue

/-!
# The sources that a reporter knows

A reporter takes the place of a diagnostic from the last of the paths it knows. A path stands where
it first arrived, whatever is registered under it later. So the place is taken from the path that
was the last to be new, with the text that was registered for it last. This is the source of the
last registration only if no other path was new after that one.
-/

namespace Scriptlet

/-- A source as it is registered: its path, and the text being worked on, if any. -/
structure Registration where
  path : String
  excerpt : Option Excerpt
  deriving DecidableEq

namespace Registration

def entry (reg : Registration) : String × Option Excerpt := (reg.path, reg.excerpt)

/-- The text that was registered last for a path. -/
def latest? (path : String) (calls : List Registration) : Option (Option Excerpt) :=
  OrderedMap.valueAmong? path (calls.map entry).reverse

theorem latest?_append_self (calls : List Registration) (last : Registration) :
    latest? last.path (calls ++ [last]) = some last.excerpt := by
  simp [latest?, entry, OrderedMap.valueAmong?]

end Registration

namespace OrderedMap

variable {κ α : Type} [DecidableEq κ]

theorem valueAmong?_of_mem {entries : List (κ × α)} (h : (entries.map (·.1)).Nodup)
    {entry : κ × α} (hentry : entry ∈ entries) : valueAmong? entry.1 entries = some entry.2 := by
  induction entries with
  | nil => cases hentry
  | cons first rest ih =>
      obtain ⟨k, a⟩ := first
      obtain ⟨fresh, distinct⟩ := List.nodup_cons.mp h
      rcases List.mem_cons.mp hentry with rfl | later
      · exact if_pos rfl
      · have other : k ≠ entry.1 := by
          rintro rfl
          exact fresh (List.mem_map.mpr ⟨entry, later, rfl⟩)
        rw [valueAmong?, if_neg other]
        exact ih distinct later

omit [DecidableEq κ] in
theorem getLast?_keys (m : OrderedMap κ α) : m.keys.getLast? = m.last?.map (·.1) :=
  List.getLast?_map

theorem get?_of_last? {m : OrderedMap κ α} {entry : κ × α} (hlast : m.last? = some entry) :
    m.get? entry.1 = some entry.2 :=
  valueAmong?_of_mem m.distinct (List.mem_of_getLast? hlast)

end OrderedMap

namespace Reporter

def register (r : Reporter) (reg : Registration) : Reporter :=
  match reg.excerpt with
  | none => r.registerPath reg.path
  | some e => r.registerText reg.path e.source e.firstLine

def registerAll (r : Reporter) (calls : List Registration) : Reporter := calls.foldl register r

def knowing (reg : Registration) : Reporter := register {} reg

theorem sources_register (r : Reporter) (reg : Registration) :
    (r.register reg).sources = r.sources.set reg.path reg.excerpt := by
  obtain ⟨path, excerpt⟩ := reg
  cases excerpt <;> rfl

theorem sources_registerAll (r : Reporter) (calls : List Registration) :
    (r.registerAll calls).sources = r.sources.setAll (calls.map Registration.entry) := by
  induction calls generalizing r with
  | nil => rfl
  | cons reg calls ih =>
      rw [List.map_cons, OrderedMap.setAll_cons]
      exact (ih (r.register reg)).trans (by rw [sources_register]; rfl)

theorem last?_knowing (reg : Registration) :
    (knowing reg).sources.last? = some (reg.path, reg.excerpt) := by
  rw [knowing, sources_register]
  rfl

theorem location_congr {r r' : Reporter} (h : r.sources.last? = r'.sources.last?)
    (position : Option Position) : r.location position = r'.location position := by
  unfold location
  rw [h]

theorem path_eq_of_location {reg reg' : Registration}
    (h : (knowing reg).location none = (knowing reg').location none) : reg.path = reg'.path := by
  unfold location at h
  rw [last?_knowing, last?_knowing] at h
  have words : reg.path ++ ": " = reg'.path ++ ": " := by simpa using h
  exact (String.append_left_inj _).mp words

/-- After any registrations the place of a diagnostic is taken from one source: its path is the last
one that was new when it came, and its text is the last one that was registered for this path. It is
the source of the last registration exactly if that has this path. -/
theorem place_is_of_newest_path (r : Reporter) (calls : List Registration) (last : Registration) :
    let all := calls ++ [last]
    ∃ used : Registration,
      (r.sources.keys ++ all.map (·.path)).eraseDups.getLast? = some used.path ∧
      (Registration.latest? used.path all).or (r.sources.get? used.path) = some used.excerpt ∧
      (∀ position, (r.registerAll all).location position = (knowing used).location position) ∧
      ((∀ position, (r.registerAll all).location position = (knowing last).location position) ↔
        used.path = last.path) := by
  intro all
  have sources := r.sources_registerAll all
  have paths : (r.registerAll all).sources.keys =
      (r.sources.keys ++ all.map (·.path)).eraseDups := by
    rw [sources, OrderedMap.keys_setAll, List.map_map]
    rfl
  have texts : ∀ path, (r.registerAll all).sources.get? path =
      (Registration.latest? path all).or (r.sources.get? path) := by
    intro path
    rw [sources]
    exact OrderedMap.get?_setAll _ _ path
  have known : last.path ∈ (r.registerAll all).sources.keys := by
    rw [paths, List.mem_eraseDups]
    simp [all]
  -- something was registered, so there is a last source
  obtain ⟨entry, hentry⟩ : ∃ entry, (r.registerAll all).sources.last? = some entry := by
    cases hlast : (r.registerAll all).sources.last? with
    | some entry => exact ⟨entry, rfl⟩
    | none =>
        rw [OrderedMap.keys, List.getLast?_eq_none_iff.mp hlast] at known
        cases known
  let used : Registration := ⟨entry.1, entry.2⟩
  have path : (r.sources.keys ++ all.map (·.path)).eraseDups.getLast? = some used.path := by
    rw [← paths, OrderedMap.getLast?_keys, hentry]
    rfl
  have text : (Registration.latest? used.path all).or (r.sources.get? used.path) =
      some used.excerpt := by
    rw [← texts]
    exact OrderedMap.get?_of_last? hentry
  have place : ∀ position,
      (r.registerAll all).location position = (knowing used).location position :=
    location_congr (hentry.trans (last?_knowing used).symm)
  refine ⟨used, path, text, place, ?_, ?_⟩
  · intro same
    exact path_eq_of_location ((place none).symm.trans (same none))
  · intro samePath position
    rw [samePath, Registration.latest?_append_self, Option.some_or] at text
    have same : used = last := by
      rw [Registration.mk.injEq]
      exact ⟨samePath, (Option.some.inj text).symm⟩
    rw [place, same]

/-- A text of `b` follows its path, and both follow `a`. -/
theorem place_is_of_newest_path_after_two :
    ∃ used : Registration, used = ⟨"b", some ⟨"x", some 3⟩⟩ ∧
      ∀ position, (registerAll {} [⟨"a", some ⟨"y", none⟩⟩, ⟨"b", none⟩, used]).location position =
        (knowing used).location position := by
  refine ⟨_, rfl, ?_⟩
  obtain ⟨used, path, -, -, exactly⟩ := place_is_of_newest_path {}
    [⟨"a", some ⟨"y", none⟩⟩, ⟨"b", none⟩] ⟨"b", some ⟨"x", some 3⟩⟩
  exact exactly.mpr (Option.some.inj path).symm

/-- The path `a` is known before `b`, so a text that is registered for it last is passed over. -/
theorem place_passes_over_known_path :
    let last : Registration := ⟨"a", some ⟨"x", some 1⟩⟩
    (registerAll {} [⟨"a", none⟩, ⟨"b", none⟩, last]).location (some ⟨1, 1⟩) = ("b: ", none) ∧
      (knowing last).location (some ⟨1, 1⟩) = ("a:1:1: ", some "x") := by
  decide

end Reporter

end Scriptlet
