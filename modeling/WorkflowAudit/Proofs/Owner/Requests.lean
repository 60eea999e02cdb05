import WorkflowAudit.Proofs.Owner.Uses
import WorkflowAudit.Proofs.Walk.Independence

/-!
What the rule on owners asks the network. Main statement: in any sequence of steps and ends of the walk,
on any network, all requests are made at the first end, one block for each owner noted so far that is
not known, and each block is as long as the answers make it.
-/

namespace WorkflowAudit.Rule

variable {probe : Probe} {earlier : List String} {url : String}

/-! ### Rounds -/

/-- The answer to the attempt after `made` attempts for an address. -/
def nthAnswer (probe : Probe) (earlier : List String) (url : String) (made : Nat) : Answer :=
  probe.answer (earlier ++ List.replicate made url) url

/-- The attempts that are made for an address: up to the first that is not too soon, and no more than
    ten. -/
def attemptsFor (probe : Probe) (earlier : List String) (url : String) : Nat :=
  match (List.range 10).find? fun made => nthAnswer probe earlier url made ≠ .status 429 with
  | some made => made + 1
  | none => 10

/-- The attempts for the address of one owner, and the last answer. -/
structure Round where
  owner : String
  usages : List Usage
  attempts : Nat
  last : Answer

namespace Round

/-- The requests of a round. -/
def requests (r : Round) : List String :=
  List.replicate r.attempts (ownerUrl r.owner)

/-- The seconds waited in a round. -/
def waited (r : Round) : Nat :=
  r.attempts * (r.attempts - 1) / 2

/-- What an answer comes to when no more attempts are made. -/
def verdict : Answer → Except ClientError Nat
  | .failure error => .error error
  | .status code =>
    if code = 429 then .error (.unexpected "still rate limited after 10 attempts") else .ok code

/-- The reports of a round. -/
def reports (r : Round) : List Report :=
  ownerReports (ownerUrl r.owner) r.usages (verdict r.last)

end Round

/-- The rounds for owners in turn, each after the requests of those before it. -/
def rounds (probe : Probe) : (earlier : List String) → Table (List Usage) → List Round
  | _, [] => []
  | earlier, (owner, usages) :: rest =>
    let attempts := attemptsFor probe earlier (ownerUrl owner)
    let round : Round :=
      ⟨owner, usages, attempts, nthAnswer probe earlier (ownerUrl owner) (attempts - 1)⟩
    round :: rounds probe (earlier ++ round.requests) rest

/-! ### The dialog for an address -/

/-- After `made` attempts for an address, `k` of the `left` that may be made follow: to all but the
    last of them the answer is that it is too soon, and to the last only if none is left. -/
structure Follow (probe : Probe) (earlier : List String) (url : String) (made left k : Nat) :
    Prop where
  pos : 0 < k
  le : k ≤ left
  tooSoon : ∀ i < k - 1, nthAnswer probe earlier url (made + i) = .status 429
  last : k < left → nthAnswer probe earlier url (made + (k - 1)) ≠ .status 429

theorem Follow.one {made left : Nat}
    (h : nthAnswer probe earlier url made = .status 429 → left = 0) :
    Follow probe earlier url made (left + 1) 1 where
  pos := Nat.one_pos
  le := Nat.le_add_left 1 left
  tooSoon i hi := absurd hi (Nat.not_lt_zero i)
  last hlt htoo := by
    have := h htoo
    omega

theorem Follow.succ {made left k : Nat}
    (htoo : nthAnswer probe earlier url made = .status 429)
    (h : Follow probe earlier url (made + 1) left k) :
    Follow probe earlier url made (left + 1) (k + 1) where
  pos := Nat.succ_pos k
  le := Nat.succ_le_succ h.le
  tooSoon i hi := by
    cases i with
    | zero => exact htoo
    | succ i =>
      rw [Nat.add_succ, ← Nat.succ_add]
      exact h.tooSoon i (by omega)
  last hlt := by
    have hk := h.pos
    rw [Nat.add_sub_cancel, ← Nat.sub_add_cancel hk, ← Nat.add_assoc, Nat.add_right_comm]
    exact h.last (by omega)

theorem attemptsFor_eq {k : Nat} (h : Follow probe earlier url 0 10 k) :
    attemptsFor probe earlier url = k := by
  have hk := h.pos
  have hbefore : ∀ i < k - 1, nthAnswer probe earlier url i = .status 429 := by
    simpa using h.tooSoon
  rw [attemptsFor]
  by_cases hlast : nthAnswer probe earlier url (k - 1) = .status 429
  · -- all answers are that it is too soon
    have hmost : k = 10 := by
      rcases Nat.lt_or_ge k 10 with hlt | hge
      · exact absurd (by rwa [Nat.zero_add]) (h.last hlt)
      · exact Nat.le_antisymm h.le hge
    rw [List.find?_eq_none.2, hmost]
    intro i hi
    rw [List.mem_range, ← hmost] at hi
    rcases Nat.lt_or_ge i (k - 1) with hlt | hge
    · simp [hbefore i hlt]
    · obtain rfl : i = k - 1 := by omega
      simp [hlast]
  · have hfind : (List.range 10).find? (fun made =>
        decide (nthAnswer probe earlier url made ≠ .status 429)) = some (k - 1) := by
      rw [List.find?_range_eq_some]
      refine ⟨by simpa using hlast, List.mem_range.2 (by have := h.le; omega), fun i hi => ?_⟩
      simp [hbefore i hi]
    rw [hfind]
    exact Nat.sub_add_cancel hk

theorem fetch_zero (url : String) :
    fetch url 0 = .done (.error (.unexpected "still rate limited after 10 attempts")) := by
  have hcause : s!"still rate limited after {maxAttempts} attempts" =
      "still rate limited after 10 attempts" := by decide
  rw [fetch, hcause]

/-- The dialog for an address after `made` of its attempts: each wait is a second longer than the one
    before. -/
theorem run_fetch (probe : Probe) (earlier : List String) (url : String) {made left : Nat}
    (hsum : made + left = maxAttempts) (hleft : 0 < left) : ∃ k, Follow probe earlier url made left k ∧
      (fetch url left).run probe (earlier ++ List.replicate made url) {} =
        (Round.verdict (nthAnswer probe earlier url (made + (k - 1))),
          ⟨List.replicate k url, ∑ i ∈ Finset.range (k - 1), (made + 1 + i)⟩) := by
  induction left generalizing made with
  | zero => omega
  | succ left ih =>
    rw [fetch, Dialog.run]
    simp only [List.append_nil, List.nil_append, tooManyRequests]
    rw [← nthAnswer]
    cases hanswer : nthAnswer probe earlier url made with
    | failure error =>
      refine ⟨1, .one fun h => ?_, ?_⟩
      · rw [hanswer] at h
        cases h
      · simp [Dialog.run, hanswer, Round.verdict]
    | status code =>
      by_cases hcode : code = 429
      · subst hcode
        by_cases hzero : left = 0
        · subst hzero
          refine ⟨1, .one fun _ => rfl, ?_⟩
          simp [Dialog.run, hanswer, Round.verdict, fetch_zero]
        · -- the wait before the next attempt
          obtain ⟨k, hk, hrun⟩ := @ih (made + 1) (by omega) (by omega)
          refine ⟨k + 1, hk.succ hanswer, ?_⟩
          obtain ⟨k, rfl⟩ := Nat.exists_eq_add_one.2 hk.pos
          have hpast : earlier ++ List.replicate made url ++ [url] =
              earlier ++ List.replicate (made + 1) url := by
            rw [List.append_assoc, List.replicate_succ']
          have hlast : made + 1 + k = made + (k + 1) := by omega
          have hwaited : maxAttempts - left + ∑ i ∈ Finset.range k, (made + 1 + 1 + i) =
              ∑ i ∈ Finset.range (k + 1), (made + 1 + i) := by
            rw [Finset.sum_range_succ', Nat.add_comm,
              Finset.sum_congr rfl fun i _ => show made + 1 + 1 + i = made + 1 + (i + 1) by omega]
            omega
          simp only [ne_eq, not_true_eq_false, if_false, if_neg hzero, Dialog.run]
          rw [Dialog.run_eq_andThen]
          simp only [hpast, hrun, hlast, Activity.andThen, List.singleton_append,
            ← List.replicate_succ, Nat.zero_add, hwaited, Nat.add_sub_cancel]
      · refine ⟨1, .one fun h => ?_, ?_⟩
        · rw [hanswer] at h
          cases h
          exact absurd rfl hcode
        · simp [Dialog.run, hanswer, Round.verdict, hcode]

/-- The dialog for an address from its first attempt on. -/
theorem run_fetch_first (probe : Probe) (earlier : List String) (url : String) :
    (fetch url maxAttempts).run probe earlier {} =
      (Round.verdict (nthAnswer probe earlier url (attemptsFor probe earlier url - 1)),
        ⟨List.replicate (attemptsFor probe earlier url) url,
          attemptsFor probe earlier url * (attemptsFor probe earlier url - 1) / 2⟩) := by
  obtain ⟨k, hk, hrun⟩ := run_fetch probe earlier url (Nat.zero_add maxAttempts) (by decide)
  rw [List.replicate_zero, List.append_nil] at hrun
  have hwaited : ∑ i ∈ Finset.range (k - 1), (0 + 1 + i) = k * (k - 1) / 2 := by
    rw [← Finset.sum_range_id]
    obtain ⟨k, rfl⟩ := Nat.exists_eq_add_one.2 hk.pos
    rw [Finset.sum_range_succ', Nat.add_sub_cancel]
    exact Finset.sum_congr rfl fun i _ => by omega
  rw [hrun, attemptsFor_eq hk, hwaited, Nat.zero_add]

/-! ### The dialog for all owners -/

/-- The owners of a table that are not known. -/
def unknownOwners (known : List String) (owners : Table (List Usage)) : Table (List Usage) :=
  owners.filter fun entry => !known.contains entry.1

/-- All that is done in rounds. -/
def roundsActivity (rs : List Round) : Activity :=
  ⟨rs.flatMap Round.requests, (rs.map Round.waited).sum⟩

theorem run_askOwners (probe : Probe) (earlier known : List String) (owners : Table (List Usage)) :
    (askOwners known owners).run probe earlier {} =
      ((rounds probe earlier (unknownOwners known owners)).flatMap Round.reports,
        roundsActivity (rounds probe earlier (unknownOwners known owners))) := by
  induction owners generalizing earlier with
  | nil => rfl
  | cons entry owners ih =>
    obtain ⟨owner, usages⟩ := entry
    rw [askOwners, unknownOwners]
    by_cases hknown : known.contains owner
    · rw [if_pos hknown, ih, List.filter_cons_of_neg (by simpa using hknown)]
      rfl
    · rw [if_neg hknown, List.filter_cons_of_pos (by simpa using hknown), rounds]
      simp only [Dialog.run_bind, Dialog.run_pure, run_fetch_first]
      rw [Dialog.run_eq_andThen, ih]
      rfl

/-! ### The walk over a workflow -/

theorem foldl_hear_repoJacking (around : Surroundings) (uses : List (String × Usage))
    (visits : List Visit) :
    visits.foldl (repoJacking.hear around) (.noting (byOwner uses), []) =
      (.noting (byOwner (uses ++ visits.flatMap usesIn)), []) := by
  induction visits generalizing uses with
  | nil => rw [List.flatMap_nil, List.append_nil]; rfl
  | cons v visits ih =>
    have hstep : repoJacking.hear around (.noting (byOwner uses), []) v =
        (.noting (byOwner (uses ++ usesIn v)), []) :=
      congrArg (·, []) (ownerVisit_noting uses v)
    rw [List.foldl_cons, hstep, ih, List.flatMap_cons, List.append_assoc]

/-- What the settings say bears on the known owners only. -/
theorem run_alone_repoJacking (around : Surroundings) (earlier : List String) (w : Workflow) :
    (repoJacking.alone around w).run around.network earlier {} =
      let rs := rounds around.network earlier
        (unknownOwners (popularOwners ++ around.settings.knownOwners)
          (byOwner (w.visits.flatMap usesIn)))
      ((rs.flatMap Round.reports).map (Finding.ofReport "repo-jacking"), roundsActivity rs) := by
  have hheard : w.visits.foldl (repoJacking.hear around) (repoJacking.start, []) =
      (.noting (byOwner (w.visits.flatMap usesIn)), []) :=
    foldl_hear_repoJacking around [] w.visits
  rw [alone, ← foldl_hear_workflow, hheard]
  simp only [repoJacking, ownerLeave, Dialog.run_bind, Dialog.run_pure, run_askOwners,
    List.nil_append]

/-! ### Sequences of calls -/

/-- A call of the rule: it is told of a step, or of the end of the walk. -/
inductive Call where
  | step (s : Step)
  | leave (w : Workflow)

/-- What comes of a call: what is done on the network, and the reports. -/
structure Deed where
  activity : Activity := {}
  reports : List Report := []

/-- Nothing is done and nothing reported. -/
def Deed.nothing : Deed := {}

/-- The state after a call and what comes of it. -/
def Call.perform (around : Surroundings) (earlier : List String) (state : OwnerState) :
    Call → OwnerState × Deed
  | .step s =>
    let (state, reports) := repoJacking.visit around state (.step s)
    (state, ⟨{}, reports⟩)
  | .leave w =>
    let ((state, reports), activity) :=
      (repoJacking.leave around state w).run around.network earlier {}
    (state, ⟨activity, reports⟩)

/-- What comes of each call of a sequence. -/
def perform (around : Surroundings) : (earlier : List String) → OwnerState → List Call → List Deed
  | _, _, [] => []
  | earlier, state, call :: calls =>
    let (next, deed) := call.perform around earlier state
    deed :: perform around (earlier ++ deed.activity.requests) next calls

/-- The steps before the first end of the walk. -/
def stepsBefore : List Call → List Step
  | [] => []
  | .step s :: calls => s :: stepsBefore calls
  | .leave _ :: _ => []

/-- The calls after the first end of the walk, if there is one. -/
def callsAfter? : List Call → Option (List Call)
  | [] => none
  | .step _ :: calls => callsAfter? calls
  | .leave _ :: calls => some calls

theorem perform_cons {around : Surroundings} {earlier : List String} {state next : OwnerState}
    {call : Call} {deed : Deed} (h : call.perform around earlier state = (next, deed))
    (calls : List Call) :
    perform around earlier state (call :: calls) =
      deed :: perform around (earlier ++ deed.activity.requests) next calls := by
  rw [perform, h]

/-- Once it has asked, the rule does nothing. -/
theorem perform_asked (around : Surroundings) (earlier : List String) (calls : List Call) :
    perform around earlier .asked calls = calls.map fun _ => Deed.nothing := by
  induction calls generalizing earlier with
  | nil => rfl
  | cons call calls ih =>
    have hcall : call.perform around earlier .asked = (.asked, .nothing) := by cases call <;> rfl
    rw [perform_cons hcall, ih, List.map_cons]

/-- A step is noted. -/
theorem perform_step (around : Surroundings) (earlier : List String) (uses : List (String × Usage))
    (s : Step) :
    Call.perform around earlier (.noting (byOwner uses)) (.step s) =
      (.noting (byOwner (uses ++ (ownedUse? s).toList)), .nothing) := by
  show (ownerVisit (.noting (byOwner uses)) (.step s), Deed.nothing) = _
  rw [ownerVisit_noting]
  rfl

/-- The owners are asked for. -/
theorem perform_leave (around : Surroundings) (earlier : List String) (owners : Table (List Usage))
    (w : Workflow) :
    Call.perform around earlier (.noting owners) (.leave w) =
      let visited := rounds around.network earlier
        (unknownOwners (popularOwners ++ around.settings.knownOwners) owners)
      (.asked, ⟨roundsActivity visited, visited.flatMap Round.reports⟩) := by
  have hleave : repoJacking.leave around (.noting owners) w = (do
      let reports ← askOwners (popularOwners ++ around.settings.knownOwners) owners
      return (.asked, reports)) := rfl
  rw [Call.perform, hleave]
  simp only [Dialog.run_bind, Dialog.run_pure, run_askOwners]

/-- What comes of the first end of the walk after steps. -/
def firstEnd (around : Surroundings) (earlier : List String) (steps : List Step) : Deed :=
  let visited := rounds around.network earlier
    (unknownOwners (popularOwners ++ around.settings.knownOwners)
      (byOwner (steps.filterMap ownedUse?)))
  ⟨roundsActivity visited, visited.flatMap Round.reports⟩

theorem perform_noting (around : Surroundings) (earlier : List String) (before : List Step)
    (calls : List Call) :
    perform around earlier (.noting (byOwner (before.filterMap ownedUse?))) calls =
      (stepsBefore calls).map (fun _ => Deed.nothing) ++
        match callsAfter? calls with
        | none => []
        | some after =>
          firstEnd around earlier (before ++ stepsBefore calls) :: after.map fun _ => Deed.nothing := by
  induction calls generalizing before with
  | nil => rfl
  | cons call calls ih =>
    cases call with
    | step s =>
      have hnoted : before.filterMap ownedUse? ++ (ownedUse? s).toList =
          (before ++ [s]).filterMap ownedUse? := by
        rw [List.filterMap_append]
        cases h : ownedUse? s <;> simp [h]
      have hquiet : earlier ++ Deed.nothing.activity.requests = earlier := List.append_nil earlier
      rw [perform_cons (perform_step ..), hquiet, hnoted, ih, stepsBefore, callsAfter?,
        List.append_assoc]
      rfl
    | leave w =>
      rw [perform_cons (perform_leave ..), perform_asked, stepsBefore, callsAfter?, List.append_nil]
      rfl

/-- On any network and in any sequence of calls, the rule on owners asks at the first end of the walk
    and at no other time. It then asks for the owners noted so far that are not known, in the order of
    their first uses, each in a round of its own; the other calls do nothing. The uses noted are those
    with an owner. A round whose last answer is 200 has no report; with another status it has one for
    each use, where that stands; with none, or if it was too soon to the end, it has one about no
    place. -/
theorem repoJacking_asks_in_rounds (around : Surroundings) (calls : List Call) :
    perform around around.earlier repoJacking.start calls =
      (stepsBefore calls).map (fun _ => Deed.nothing) ++
        (match callsAfter? calls with
        | none => []
        | some after =>
          firstEnd around around.earlier (stepsBefore calls) :: after.map fun _ => Deed.nothing) ∧
    (∀ s owner u, ownedUse? s = some (owner, u) ↔ OwnedUse s owner u) ∧
    ∀ r : Round, r.reports.map Report.position =
      match r.last with
      | .failure _ => [⟨0, 0⟩]
      | .status code =>
        if code = 200 then [] else if code = 429 then [⟨0, 0⟩] else r.usages.map Usage.position := by
  refine ⟨perform_noting around around.earlier [] calls, fun s owner u => ownedUse?_eq_some_iff,
    fun r => ?_⟩
  rw [Round.reports]
  cases r.last with
  | failure error => rfl
  | status code =>
    by_cases htoo : code = 429
    · subst htoo
      rfl
    · have hverdict : Round.verdict (.status code) = .ok code := if_neg htoo
      simp only [hverdict, ownerReports, if_neg htoo]
      split
      · rfl
      · rw [List.map_map]
        rfl

end WorkflowAudit.Rule
