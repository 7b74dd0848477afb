import Prenex.Registry
import Prenex.Distinct

/-!
# Who owns a fingerprint

After any requests the registry is determined by the names that were to be registered, in order: a
fingerprint belongs to the first of them that has it. Later names with the same fingerprint are
turned away and leave no trace, and looking things up changes nothing.
-/

namespace Prenex

namespace Registry

/-! ## Requests -/

inductive Request where
  | register (q : QualifiedName)
  | lookup (q : QualifiedName)
  | find (f : Fingerprint)
  | contains (q : QualifiedName)
  | size

inductive Answer where
  | registered (result : Except Collision Constructor)
  | found (c : Option Constructor)
  | contained (known : Bool)
  | count (n : Nat)

def serve (r : Registry) : Request → Answer × Registry
  | .register q =>
    let (result, r) := r.register q
    (.registered result, r)
  | .lookup q => (.found (r.lookup q), r)
  | .find f => (.found (r.find? f), r)
  | .contains q => (.contained (r.contains q), r)
  | .size => (.count r.size, r)

/-- Serves the requests in order. -/
def serveAll (r : Registry) : List Request → List Answer × Registry
  | [] => ([], r)
  | request :: rest =>
    let (answer, r) := r.serve request
    let (answers, r) := r.serveAll rest
    (answer :: answers, r)

theorem serveAll_append (r : Registry) (front rest : List Request) :
    r.serveAll (front ++ rest) =
      ((r.serveAll front).1 ++ ((r.serveAll front).2.serveAll rest).1,
        ((r.serveAll front).2.serveAll rest).2) := by
  induction front generalizing r with
  | nil => rfl
  | cons request front ih => simp only [List.cons_append, serveAll, ih]

theorem length_serveAll (r : Registry) (requests : List Request) :
    (r.serveAll requests).1.length = requests.length := by
  induction requests generalizing r with
  | nil => rfl
  | cons request requests ih => simp only [serveAll, List.length_cons, ih]

/-- The name that a request wants to register. -/
def Request.name? : Request → Option QualifiedName
  | .register q => some q
  | _ => none

/-- The names that are to be registered, in order. -/
def names (requests : List Request) : List QualifiedName := requests.filterMap Request.name?

/-- The first name with a fingerprint. -/
def first? (qs : List QualifiedName) (f : Fingerprint) : Option QualifiedName :=
  qs.find? (·.fingerprint = f)

theorem first?_append_singleton (qs : List QualifiedName) (q : QualifiedName) (f : Fingerprint) :
    first? (qs ++ [q]) f = (first? qs f).or (if q.fingerprint = f then some q else none) := by
  unfold first?
  rw [List.find?_append, List.find?_singleton]
  simp

/-! ## One registration -/

theorem find?_insert (r : Registry) (c : Constructor) (f : Fingerprint) :
    (r.insert c).find? f = if c.fingerprint = f then some c else r.find? f := by
  unfold insert find?
  rw [Std.HashMap.getElem?_insert]
  simp

theorem size_insert {r : Registry} {c : Constructor} (h : r.find? c.fingerprint = none) :
    (r.insert c).size = r.size + 1 := by
  have hnew : c.fingerprint ∉ r.table := by
    rw [Std.HashMap.mem_iff_isSome_getElem?]
    unfold find? at h
    simp [h]
  unfold insert size
  rw [Std.HashMap.size_insert, if_neg hnew]

theorem register_cases (r : Registry) (q : QualifiedName) :
    (r.find? q.fingerprint = none ∧ r.register q = (.ok (.ofName q), r.insert (.ofName q))) ∨
    ∃ c, r.find? q.fingerprint = some c ∧
      (c.toQualifiedName = q ∧ r.register q = (.ok c, r) ∨
        c.toQualifiedName ≠ q ∧ r.register q = (.error ⟨c, q⟩, r)) := by
  unfold register owner?
  rcases hfind : r.find? q.fingerprint with _ | c
  · exact .inl ⟨rfl, rfl⟩
  · by_cases hname : c.toQualifiedName = q
    · exact .inr ⟨c, rfl, .inl ⟨hname, by simp [hname]⟩⟩
    · exact .inr ⟨c, rfl, .inr ⟨hname, by simp [hname]⟩⟩

theorem lookup_eq_some_iff (r : Registry) (q : QualifiedName) (c : Constructor) :
    r.lookup q = some c ↔ r.find? q.fingerprint = some c ∧ c.toQualifiedName = q := by
  unfold lookup owner?
  rcases hfind : r.find? q.fingerprint with _ | d
  · simp
  · by_cases hname : d.toQualifiedName = q
    · simp only [hname, if_true, Option.some.injEq]
      constructor
      · rintro rfl
        exact ⟨rfl, hname⟩
      · exact And.left
    · simp only [hname, if_false, reduceCtorEq, Option.some.injEq, false_iff, not_and]
      rintro rfl
      exact hname

/-! ## Whole runs -/

/-- The registry holds the first name for each fingerprint among `qs`, and nothing else. -/
structure Records (r : Registry) (qs : List QualifiedName) : Prop where
  find?_eq : ∀ f, r.find? f = (first? qs f).map .ofName
  size_eq : r.size = distinctCount (qs.map (·.fingerprint))

theorem records_empty : empty.Records [] where
  find?_eq _ := Std.HashMap.getElem?_empty
  size_eq := rfl

variable {r : Registry} {qs : List QualifiedName}

theorem Records.mem_iff (h : r.Records qs) (f : Fingerprint) :
    f ∈ qs.map (·.fingerprint) ↔ r.find? f ≠ none := by
  rw [h.find?_eq, ne_eq, Option.map_eq_none_iff, first?, List.find?_eq_none]
  simp

theorem Records.insert (h : r.Records qs) {q : QualifiedName}
    (hnew : r.find? q.fingerprint = none) :
    (r.insert (.ofName q)).Records (qs ++ [q]) := by
  have hfirst : first? qs q.fingerprint = none := by
    simpa [h.find?_eq] using hnew
  constructor
  · intro f
    rw [find?_insert, first?_append_singleton, h.find?_eq]
    show (if q.fingerprint = f then _ else _) = _
    by_cases hf : q.fingerprint = f
    · subst hf
      simp [hfirst]
    · simp [hf]
  · have hmem : q.fingerprint ∉ qs.map (·.fingerprint) := by
      rw [h.mem_iff]
      simpa using hnew
    rw [size_insert hnew, h.size_eq, List.map_append, List.map_singleton,
      distinctCount_append_of_not_mem hmem]

theorem Records.keep (h : r.Records qs) {q : QualifiedName} (hold : r.find? q.fingerprint ≠ none) :
    r.Records (qs ++ [q]) := by
  constructor
  · intro f
    rw [first?_append_singleton, h.find?_eq]
    by_cases hf : q.fingerprint = f
    · -- The owner stands before `q` in the list, so it is still the first.
      subst hf
      rw [h.find?_eq, ne_eq, Option.map_eq_none_iff] at hold
      rw [Option.or_of_isSome (Option.isSome_iff_ne_none.mpr hold)]
    · simp [hf]
  · have hmem := (h.mem_iff _).mpr hold
    rw [h.size_eq, List.map_append, List.map_singleton, distinctCount_append_of_mem hmem]

theorem Records.register (h : r.Records qs) (q : QualifiedName) :
    (r.register q).2.Records (qs ++ [q]) := by
  rcases r.register_cases q with ⟨hnew, heq⟩ | ⟨c, hc, ⟨-, heq⟩ | ⟨-, heq⟩⟩
  · rw [heq]
    exact h.insert hnew
  all_goals
    rw [heq]
    exact h.keep (by simp [hc])

theorem Records.serve (h : r.Records qs) (request : Request) :
    (r.serve request).2.Records (qs ++ request.name?.toList) := by
  cases request with
  | register q => exact h.register q
  | _ => simpa [Request.name?, Registry.serve] using h

theorem Records.serveAll (h : r.Records qs) (requests : List Request) :
    (r.serveAll requests).2.Records (qs ++ names requests) := by
  induction requests generalizing r qs with
  | nil => simpa [Registry.serveAll, names] using h
  | cons request requests ih =>
    have hrest := ih (h.serve request)
    rw [List.append_assoc] at hrest
    have hnames : request.name?.toList ++ names requests = names (request :: requests) := by
      unfold names
      rcases hname : request.name? with _ | q <;> simp [hname]
    rwa [hnames] at hrest

theorem Records.register_eq (h : r.Records qs) (q : QualifiedName) :
    ∃ first, first? (qs ++ [q]) q.fingerprint = some first ∧
      (first = q ∧ (r.register q).1 = .ok (.ofName q) ∨
        first ≠ q ∧ r.register q = (.error ⟨.ofName first, q⟩, r)) := by
  rcases r.register_cases q with ⟨hnew, heq⟩ | ⟨c, hc, hregister⟩
  · rw [h.find?_eq, Option.map_eq_none_iff] at hnew
    refine ⟨q, by simp [first?_append_singleton, hnew], .inl ⟨rfl, by rw [heq]⟩⟩
  · rw [h.find?_eq, Option.map_eq_some_iff] at hc
    obtain ⟨first, hfirst, rfl⟩ := hc
    refine ⟨first, by simp [first?_append_singleton, hfirst], ?_⟩
    rcases hregister with ⟨rfl, heq⟩ | ⟨hne, heq⟩
    · exact .inl ⟨rfl, by rw [heq]; rfl⟩
    · exact .inr ⟨hne, heq⟩

theorem Records.lookup_iff (h : r.Records qs) (q : QualifiedName) (c : Constructor) :
    r.lookup q = some c ↔ first? qs q.fingerprint = some q ∧ c.toQualifiedName = q := by
  rw [lookup_eq_some_iff, h.find?_eq, Option.map_eq_some_iff]
  constructor
  · rintro ⟨⟨p, hp, rfl⟩, rfl⟩
    exact ⟨hp, rfl⟩
  · rintro ⟨hq, hname⟩
    exact ⟨⟨q, hq, Constructor.eq_of_toQualifiedName_eq hname.symm⟩, hname⟩

theorem records_serveAll (requests : List Request) :
    (empty.serveAll requests).2.Records (names requests) :=
  records_empty.serveAll requests

theorem getElem?_serveAll (r : Registry) (before rest : List Request) (request : Request) :
    (r.serveAll (before ++ request :: rest)).1[before.length]? =
      some ((r.serveAll before).2.serve request).1 := by
  rw [serveAll_append, ← length_serveAll r before,
    List.getElem?_append_right (Nat.le_refl _), Nat.sub_self]
  rfl

/-- The first name to be registered owns its fingerprint for the whole run. A registration succeeds
if and only if its name is that first one. Otherwise it reports the owner and changes nothing. -/
theorem first_registration_owns (requests : List Request) :
    let answers := (empty.serveAll requests).1
    let r := (empty.serveAll requests).2
    let qs := names requests
    (∀ before q rest, requests = before ++ .register q :: rest →
      ∃ first, first? (names before ++ [q]) q.fingerprint = some first ∧
        ((∃ c, answers[before.length]? = some (.registered (.ok c)) ∧ c.toQualifiedName = q) ↔
          first = q) ∧
        (first ≠ q → answers[before.length]? = some (.registered (.error ⟨.ofName first, q⟩)) ∧
          (empty.serveAll (before ++ [.register q])).2 = (empty.serveAll before).2)) ∧
    (∀ f, r.find? f = (first? qs f).map .ofName) ∧
    (∀ q c, r.lookup q = some c ↔ first? qs q.fingerprint = some q ∧ c.toQualifiedName = q) ∧
    (∀ q, r.contains q = (r.lookup q).isSome) ∧
    r.size = distinctCount (qs.map (·.fingerprint)) := by
  intro answers r qs
  have hrecords : r.Records qs := records_serveAll requests
  refine ⟨fun before q rest hrequests => ?_, hrecords.find?_eq, hrecords.lookup_iff,
    fun q => rfl, hrecords.size_eq⟩
  have hanswer : answers[before.length]? =
      some (.registered ((empty.serveAll before).2.register q).1) := by
    show (empty.serveAll requests).1[before.length]? = _
    rw [hrequests, getElem?_serveAll]
    rfl
  -- The call sees the registry that the requests before it left.
  obtain ⟨first, hfirst, hregister⟩ := (records_serveAll before).register_eq q
  refine ⟨first, hfirst, ?_, fun hne => ?_⟩
  · rcases hregister with ⟨heq, hok⟩ | ⟨hne, herror⟩
    · simp only [hanswer, hok, heq, iff_true]
      exact ⟨_, rfl, rfl⟩
    · simp [hanswer, herror, hne]
  · obtain ⟨-, herror⟩ := hregister.resolve_left fun h => hne h.1
    rw [hanswer, herror, serveAll_append]
    refine ⟨rfl, ?_⟩
    show ((empty.serveAll before).2.register q).2 = _
    rw [herror]

theorem first_registration_owns_collision :
    let p : QualifiedName := ⟨"pkg", "Mod", "9naHVck0ab"⟩
    let q : QualifiedName := ⟨"pkg", "Mod", "9naHVckpib"⟩
    let requests := [.register p, .lookup q] ++ .register q :: [.contains q, .register p]
    let answers := (empty.serveAll requests).1
    let r := (empty.serveAll requests).2
    p ≠ q ∧ p.fingerprint = q.fingerprint ∧
      answers[2]? = some (.registered (.error ⟨.ofName p, q⟩)) ∧
      (∃ c, answers[4]? = some (.registered (.ok c)) ∧ c.toQualifiedName = p) ∧
      r.find? q.fingerprint = some (.ofName p) ∧ r.lookup q = none ∧
        r.contains q = false ∧ r.size = 1 := by
  intro p q requests answers r
  have hne : p ≠ q := by decide
  have hprint : p.fingerprint = q.fingerprint := by decide +kernel
  obtain ⟨hcalls, hfind, hlookup, hcontains, hsize⟩ := first_registration_owns requests
  have hnames : names requests = [p, q, p] := rfl
  have hfirst : ∀ qs, first? (p :: qs) q.fingerprint = some p := by
    intro qs
    simp [first?, hprint]
  obtain ⟨owner, howner, -, herror⟩ :=
    hcalls [.register p, .lookup q] q [.contains q, .register p] rfl
  obtain rfl : p = owner := Option.some.inj ((hfirst _).symm.trans howner)
  obtain ⟨owner, howner, hok, -⟩ :=
    hcalls [.register p, .lookup q, .register q, .contains q] p [] rfl
  rw [hprint] at howner
  obtain rfl : p = owner := Option.some.inj ((hfirst _).symm.trans howner)
  have hnone : r.lookup q = none := by
    rw [Option.eq_none_iff_forall_ne_some]
    intro c hc
    have howned := ((hlookup q c).mp hc).1
    exact hne (Option.some.inj ((hfirst _).symm.trans howned))
  refine ⟨hne, hprint, (herror hne).1, hok.mpr rfl, ?_, hnone, ?_, ?_⟩
  · rw [hfind, hnames, hfirst]
    rfl
  · rw [hcontains, hnone]
    rfl
  · rw [hsize, hnames]
    simp [hprint, distinctCount, List.eraseDups_cons]

end Registry

end Prenex
