import Prenex.Proofs.Supply

/-!
# One supply for many callers

Whatever is asked of a supply, and in whatever order, it hands out the indices from its start on,
each of them once. So what one caller gets no other has. A type that needs more than there are takes
the rest and is given up, and from then on there is nothing for anybody.
-/

namespace Prenex.Supply

/-! ## Requests -/

inductive Request where
  | tryFresh
  | fresh
  | freshen (t : Ty)

inductive Answer where
  | index (i : Index)
  | type (t : Ty)
  /-- There is no index left. -/
  | nothing
  /-- The supply ran dry, and the call was given up. -/
  | exhausted

def serve (s : Supply) : Request → Answer × Supply
  | .tryFresh =>
    match s.fresh? with
    | some (i, s) => (.index i, s)
    | none => (.nothing, s)
  | .fresh =>
    match s.fresh? with
    | some (i, s) => (.index i, s)
    | none => (.exhausted, s)
  | .freshen t =>
    match s.freshen t with
    | (some u, s) => (.type u, s)
    | (none, s) => (.exhausted, s)

/-- Serves the requests in order. -/
def serveAll (s : Supply) : List Request → List Answer × Supply
  | [] => ([], s)
  | request :: rest =>
    let (answer, s) := s.serve request
    let (answers, s) := s.serveAll rest
    (answer :: answers, s)

/-- How many indices a request needs. -/
def Request.need : Request → Nat
  | .tryFresh => 1
  | .fresh => 1
  | .freshen t => t.vars.length

/-- The indices that stand in an answer. -/
def Answer.indices : Answer → List Index
  | .index i => [i]
  | .type t => t.vars
  | .nothing => []
  | .exhausted => []

/-- All indices that leave the supply, also those for a type that is given up. -/
def handedOut (s : Supply) : List Request → List Index
  | [] => []
  | request :: rest => (s.take request.need).1 ++ (s.serve request).2.handedOut rest

/-! ## One request -/

variable {s : Supply}

theorem serve_snd (s : Supply) (request : Request) :
    (s.serve request).2 = (s.take request.need).2 := by
  cases request with
  | tryFresh =>
    simp only [serve, Request.need, take]
    cases s.fresh? <;> rfl
  | fresh =>
    simp only [serve, Request.need, take]
    cases s.fresh? <;> rfl
  | freshen t =>
    simp only [serve, Request.need, freshen]
    split <;> simp_all

theorem next_serve (s : Supply) (request : Request) :
    (s.serve request).2.next = s.next + min request.need s.left := by
  rw [serve_snd, (s.take_spec request.need).2]

theorem serve_of_le {request : Request} (h : s.next + request.need ≤ indexCount) :
    (s.serve request).1 ≠ .exhausted ∧
      (s.serve request).1.indices = (s.take request.need).1 := by
  cases request with
  | tryFresh => simp [serve, Request.need, take, fresh?_eq h, Answer.indices]
  | fresh => simp [serve, Request.need, take, fresh?_eq h, Answer.indices]
  | freshen t =>
    have hvars := Ty.vars_renumber h
    simp only [Request.need] at h ⊢
    simp [serve, freshen_eq h, Answer.indices, hvars, take_eq h]

theorem serve_cases (s : Supply) (request : Request) :
    (s.serve request).1 ≠ .exhausted ∧
      (s.serve request).1.indices = (s.take request.need).1 ∨
    (s.serve request).1 = .exhausted ∧ (s.serve request).2.next = indexCount := by
  rcases Nat.lt_or_ge indexCount (s.next + request.need) with h | h
  · have hs := s.next_le
    have hdry : (s.serve request).2.next = indexCount := by
      rw [next_serve]
      unfold left
      omega
    have hnone : request.need = 1 → s.fresh? = none := fun hone => fresh?_eq_none (by omega)
    cases request with
    | tryFresh =>
      -- Nothing is left and nothing is taken, so this is no failure.
      left
      simp [serve, Request.need, take, hnone rfl, Answer.indices]
    | fresh => exact .inr ⟨by simp [serve, hnone rfl], hdry⟩
    | freshen t => exact .inr ⟨by simp [serve, freshen_of_lt h], hdry⟩
  · exact .inl (serve_of_le h)

theorem serve_eq_peek? (s : Supply) :
    (s.serve .tryFresh).1 = s.peek?.elim .nothing .index ∧
      (s.serve .fresh).1 = s.peek?.elim .exhausted .index := by
  unfold serve fresh? peek?
  by_cases h : s.next < indexCount <;> simp [h]

/-! ## Whole runs -/

theorem serveAll_of_dry (hs : s.next = indexCount) (requests : List Request) :
    (s.serveAll requests).1.flatMap Answer.indices = [] ∧
      (s.serveAll requests).2.next = indexCount := by
  induction requests generalizing s with
  | nil => exact ⟨rfl, hs⟩
  | cons request rest ih =>
    have hmin : min request.need s.left = 0 := by
      unfold left
      omega
    have hdry : (s.serve request).2.next = indexCount := by
      rw [next_serve, hmin, hs, Nat.add_zero]
    have hindices : (s.serve request).1.indices = [] := by
      rcases s.serve_cases request with ⟨-, h⟩ | ⟨h, -⟩
      · rw [h, (s.take_spec request.need).1, hmin]
        rfl
      · rw [h]
        rfl
    obtain ⟨hrest, hend⟩ := ih hdry
    simp only [serveAll, List.flatMap_cons]
    exact ⟨by rw [hindices, hrest]; rfl, hend⟩

theorem next_le_serveAll (s : Supply) (requests : List Request) :
    s.next ≤ (s.serveAll requests).2.next := by
  induction requests generalizing s with
  | nil => exact Nat.le_refl _
  | cons request rest ih =>
    have hstep := s.next_serve request
    have hrest := ih (s.serve request).2
    simp only [serveAll]
    omega

theorem handedOut_eq (s : Supply) (requests : List Request) :
    s.handedOut requests =
      (List.range' s.next ((s.serveAll requests).2.next - s.next)).map UInt32.ofNat := by
  induction requests generalizing s with
  | nil => simp [handedOut, serveAll]
  | cons request rest ih =>
    have hstep := s.next_serve request
    have hrest := next_le_serveAll (s.serve request).2 rest
    simp only [handedOut, serveAll]
    rw [ih, (s.take_spec request.need).1, ← List.map_append, hstep, List.range'_append_1]
    congr 2
    omega

theorem next_of_exhausted_mem {requests : List Request}
    (h : .exhausted ∈ (s.serveAll requests).1) : (s.serveAll requests).2.next = indexCount := by
  induction requests generalizing s with
  | nil => cases h
  | cons request rest ih =>
    simp only [serveAll, List.mem_cons] at h
    rcases h with hhead | hrest
    · obtain ⟨-, hdry⟩ := (s.serve_cases request).resolve_left fun hfirst => hfirst.1 hhead.symm
      exact (serveAll_of_dry hdry rest).2
    · exact ih hrest

theorem indices_serveAll {requests : List Request} (h : .exhausted ∉ (s.serveAll requests).1) :
    (s.serveAll requests).1.flatMap Answer.indices = s.handedOut requests := by
  induction requests generalizing s with
  | nil => rfl
  | cons request rest ih =>
    simp only [serveAll, List.mem_cons, not_or] at h
    obtain ⟨hhead, hrest⟩ := h
    obtain ⟨-, hindices⟩ := (s.serve_cases request).resolve_right fun hfirst => hhead hfirst.1.symm
    simp only [serveAll, handedOut, List.flatMap_cons]
    rw [hindices, ih hrest]

theorem indices_prefix_handedOut (s : Supply) (requests : List Request) :
    (s.serveAll requests).1.flatMap Answer.indices <+: s.handedOut requests := by
  induction requests generalizing s with
  | nil => exact List.nil_prefix
  | cons request rest ih =>
    simp only [serveAll, handedOut, List.flatMap_cons]
    rcases s.serve_cases request with ⟨-, h⟩ | ⟨h, hdry⟩
    · rw [h, List.prefix_append_right_inj]
      exact ih _
    · -- What was taken for a type that is given up stands in no answer.
      rw [h, (serveAll_of_dry hdry rest).1]
      exact List.nil_prefix

theorem map_toNat_handedOut (s : Supply) (requests : List Request) :
    (s.handedOut requests).map UInt32.toNat =
      List.range' s.next ((s.serveAll requests).2.next - s.next) := by
  have hle := s.next_le_serveAll requests
  have hend := (s.serveAll requests).2.next_le
  rw [handedOut_eq, map_toNat_ofNat_range' (by omega)]

theorem pairwise_disjoint_serveAll (s : Supply) (requests : List Request) :
    (s.serveAll requests).1.Pairwise fun a b => a.indices.Disjoint b.indices := by
  have hnodup : (s.handedOut requests).Nodup := by
    apply List.Nodup.of_map UInt32.toNat
    rw [map_toNat_handedOut]
    exact List.nodup_range'
  exact (List.nodup_flatMap.mp (hnodup.sublist (s.indices_prefix_handedOut requests).sublist)).2

theorem freshen_outcome (s : Supply) (t : Ty) :
    s.next + t.vars.length ≤ indexCount ∧
      (∃ m s', s.freshen t = (some (t.rename m), s') ∧
        s.serve (.freshen t) = (.type (t.rename m), s') ∧
        (t.rename m).vars = t.vars.map m ∧
        (t.rename m).vars.map UInt32.toNat = List.range' s.next t.vars.length ∧
        s'.next = s.next + t.vars.length) ∨
    indexCount < s.next + t.vars.length ∧
      ∃ s', s.freshen t = (none, s') ∧ s.serve (.freshen t) = (.exhausted, s') ∧
        s'.peek? = none := by
  rcases Nat.lt_or_ge indexCount (s.next + t.vars.length) with h | h
  · refine .inr ⟨h, _, freshen_of_lt h, ?_, (peek?_eq_none_iff _).mpr rfl⟩
    simp only [serve, freshen_of_lt h]
  · refine .inl ⟨h, t.numberFrom s.next, _, freshen_eq h, ?_, ?_, ?_, rfl⟩
    · simp only [serve, freshen_eq h]
      rfl
    · exact Ty.vars_rename (Ty.numberFrom_injOn h)
    · exact (congrArg _ (Ty.vars_renumber h)).trans (map_toNat_ofNat_range' h)

/-- Over any run the indices that leave the supply are `start`, `start + 1` and so on, and if no
call is given up they all stand in the answers. No two answers share one. A single index is the one
that `peek?` shows. A type gets new numbers if and only if there are enough of them. A supply that
is dry stays dry. -/
theorem never_hands_out_twice (start : Index) (requests : List Request) :
    let answers := ((startingAt start).serveAll requests).1
    let s := ((startingAt start).serveAll requests).2
    ((startingAt start).handedOut requests).map UInt32.toNat =
      List.range' start.toNat (s.next - start.toNat) ∧
    answers.flatMap Answer.indices <+: (startingAt start).handedOut requests ∧
    (.exhausted ∉ answers →
      answers.flatMap Answer.indices = (startingAt start).handedOut requests) ∧
    (s.peek? ≠ none → .exhausted ∉ answers) ∧
    answers.Pairwise (fun a b => a.indices.Disjoint b.indices) ∧
    ((s.serve .tryFresh).1 = s.peek?.elim .nothing .index ∧
      (s.serve .fresh).1 = s.peek?.elim .exhausted .index) ∧
    (∀ t : Ty,
      s.next + t.vars.length ≤ indexCount ∧
        (∃ m s', s.freshen t = (some (t.rename m), s') ∧
          s.serve (.freshen t) = (.type (t.rename m), s') ∧
          (t.rename m).vars = t.vars.map m ∧
          (t.rename m).vars.map UInt32.toNat = List.range' s.next t.vars.length ∧
          s'.next = s.next + t.vars.length) ∨
      indexCount < s.next + t.vars.length ∧
        ∃ s', s.freshen t = (none, s') ∧ s.serve (.freshen t) = (.exhausted, s') ∧
          s'.peek? = none) ∧
    (s.peek? = none →
      ∀ more, (s.serveAll more).2.peek? = none ∧ (s.serveAll more).2.fresh? = none) := by
  intro answers s
  refine ⟨map_toNat_handedOut _ requests, indices_prefix_handedOut _ requests, indices_serveAll,
    fun hs hmem => ?_, pairwise_disjoint_serveAll _ requests, s.serve_eq_peek?, s.freshen_outcome,
    fun hs more => ?_⟩
  · exact hs ((peek?_eq_none_iff s).mpr (next_of_exhausted_mem hmem))
  · have hdry := (serveAll_of_dry ((peek?_eq_none_iff s).mp hs) more).2
    exact ⟨(peek?_eq_none_iff _).mpr hdry, fresh?_eq_none hdry⟩

theorem never_hands_out_twice_at_the_end :
    let t : Ty := .app (.var 9) [.var 9]
    let all : List Request := [.tryFresh, .freshen t, .fresh]
    let requests : List Request := [.tryFresh, .freshen t, .freshen (.fn (.var 0) (.var 1))]
    let supply := startingAt 4294967293
    let s := (supply.serveAll requests).2
    .exhausted ∉ (supply.serveAll all).1 ∧
      (supply.serveAll all).1.flatMap Answer.indices = [4294967293, 4294967294, 4294967295] ∧
      (supply.serveAll requests).1 =
        [.index 4294967293, .type (.app (.var 4294967294) [.var 4294967294]), .exhausted] ∧
      supply.handedOut requests = [4294967293, 4294967294, 4294967295] ∧
      (supply.serveAll requests).1.Pairwise (fun a b => a.indices.Disjoint b.indices) ∧
      s.peek? = none ∧ (s.serveAll [.fresh, .freshen t]).2.fresh? = none := by
  -- `all` hands out the last three indices, and `requests` loses one of them with a type.
  intro t all requests supply s
  have hanswers : (supply.serveAll all).1 = [.index 4294967293,
      .type (.app (.var 4294967294) [.var 4294967294]), .index 4294967295] := rfl
  have hkept : .exhausted ∉ (supply.serveAll all).1 := by
    rw [hanswers]
    simp
  have hhanded : supply.handedOut all = [4294967293, 4294967294, 4294967295] := by decide
  obtain ⟨-, -, hall, -⟩ := never_hands_out_twice 4294967293 all
  have hs : s.peek? = none := rfl
  obtain ⟨-, -, -, -, hdisjoint, -, -, hdry⟩ := never_hands_out_twice 4294967293 requests
  exact ⟨hkept, (hall hkept).trans hhanded, rfl, by decide, hdisjoint, hs, (hdry hs _).2⟩

end Prenex.Supply
