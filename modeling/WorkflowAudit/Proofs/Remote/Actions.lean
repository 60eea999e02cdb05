import Mathlib
import WorkflowAudit.Remote.Crawl

/-!
What a part of a crawl does. A part that starts in a state and is followed for some rounds leaves a state
whose trace goes on from the trace before. Main statement: if the first of two parts does what is allowed
and gives a result after which the second does so, then both together do.
-/

namespace WorkflowAudit

/-- How long an action sleeps. -/
def CrawlAction.seconds : CrawlAction → Nat
  | sleep seconds => seconds
  | ask _ | makeDirs _ | write _ => 0

/-- The state after an action that leaves the disk and the clock as they are. -/
def CrawlState.after (s : CrawlState) (action : CrawlAction) : CrawlState :=
  { s with trace := s.trace ++ [action] }

namespace Crawl

variable {α β : Type} {n : Nat}

/-! ### Single steps -/

theorem outcome_bind_ok {m : Crawl α} {s t : CrawlState} {a : α} (h : outcome m n s = (.ok a, t))
    (f : α → Crawl β) : outcome (m >>= f) n s = outcome (f a) n t := by
  rw [outcome] at h
  rw [outcome, ReaderT.run_bind, ExceptT.run_bind, StateT.run_bind, h]
  rfl

theorem outcome_bind_error {m : Crawl α} {s t : CrawlState} {halt : Halt}
    (h : outcome m n s = (.error halt, t)) (f : α → Crawl β) :
    outcome (m >>= f) n s = (.error halt, t) := by
  rw [outcome] at h
  rw [outcome, ReaderT.run_bind, ExceptT.run_bind, StateT.run_bind, h]
  rfl

theorem outcome_record (action : CrawlAction) (s : CrawlState) :
    outcome (record action) n s = (.ok (), s.after action) :=
  rfl

theorem outcome_get (s : CrawlState) : outcome get n s = (.ok s, s) :=
  rfl

theorem outcome_read (s : CrawlState) : outcome read n s = (.ok n, s) :=
  rfl

/-- What becomes of a result if an error goes no further. -/
def attempted : Except Halt Unit → Except Halt Bool
  | .ok () => .ok true
  | .error (.failed _) => .ok false
  | .error .unfinished => .error .unfinished

theorem outcome_attempt (m : Crawl Unit) (s : CrawlState) :
    outcome (attempt m) n s = (attempted (outcome m n s).1, (outcome m n s).2) := by
  have hpart : StateT.run (m.run n).run s = outcome m n s := rfl
  rw [outcome, ReaderT.run, attempt, ExceptT.run_mk, StateT.run_bind, hpart]
  cases outcome m n s with
  | mk result t =>
    cases result with
    | ok _ => rfl
    | error halt => cases halt <;> rfl

theorem outcome_ask_ok {request : ApiRequest} {answer : List CrawlAction → Except String α}
    {s : CrawlState} {a : α} (h : answer s.trace = .ok a) :
    outcome (ask request answer) n s = (.ok a, s.after (.ask request)) := by
  rw [ask, outcome_bind_ok (outcome_get s), outcome_bind_ok (outcome_record _ s), h]
  rfl

theorem outcome_ask_error {request : ApiRequest} {answer : List CrawlAction → Except String α}
    {s : CrawlState} {cause : String} (h : answer s.trace = .error cause) :
    outcome (ask request answer) n s = (.error (.failed (.api cause)), s.after (.ask request)) := by
  rw [ask, outcome_bind_ok (outcome_get s), outcome_bind_ok (outcome_record _ s), h]
  rfl

theorem outcome_makeDirs (path : String) (s : CrawlState) :
    outcome (makeDirs path) n s =
      (if (s.disk.makeDirs path).2 then .ok () else .error (.failed (.unwritable path)),
        { s.after (.makeDirs path) with disk := (s.disk.makeDirs path).1 }) := by
  rw [makeDirs, outcome_bind_ok (outcome_record _ s), outcome_bind_ok (outcome_get _)]
  cases hmade : (s.disk.makeDirs path).2 <;>
  · simp only [CrawlState.after, hmade]
    rfl

theorem outcome_write_some {path content : String} {s : CrawlState} {disk : Disk}
    (h : s.disk.writeFile? path content = some disk) :
    outcome (write path content) n s = (.ok (), { s.after (.write path) with disk := disk }) := by
  rw [write, outcome_bind_ok (outcome_record _ s), outcome_bind_ok (outcome_get _)]
  simp only [CrawlState.after, h]
  rfl

theorem outcome_write_none {path content : String} {s : CrawlState}
    (h : s.disk.writeFile? path content = none) :
    outcome (write path content) n s = (.error (.failed (.unwritable path)), s.after (.write path)) := by
  rw [write, outcome_bind_ok (outcome_record _ s), outcome_bind_ok (outcome_get _)]
  simp only [CrawlState.after, h]
  rfl

/-- How long actions sleep together. -/
def slept (done : List CrawlAction) : Nat :=
  (done.map CrawlAction.seconds).sum

theorem slept_append (first second : List CrawlAction) :
    slept (first ++ second) = slept first + slept second := by
  simp [slept]

theorem outcome_awaitLimit_error {api : RepoApi} {s : CrawlState} {cause : String}
    (h : api.rateLimit s.trace = .error cause) :
    outcome (awaitLimit api) n s = (.error (.failed (.api cause)), s.after (.ask .rateLimit)) :=
  outcome_bind_error (outcome_ask_error h) _

/-- After a look at the limit nothing is done but sleep, and that long enough if few requests are left. -/
theorem outcome_awaitLimit_ok {api : RepoApi} {s : CrawlState} {limit : RateLimit}
    (h : api.rateLimit s.trace = .ok limit) :
    ∃ t pause, outcome (awaitLimit api) n s = (.ok (), t) ∧ t.disk = s.disk ∧
      t.now = s.now + slept pause ∧ t.trace = s.trace ++ .ask .rateLimit :: pause ∧
      (∀ action ∈ pause, ∃ seconds, action = .sleep seconds) ∧
      (limit.remaining < 10 →
        limit.reset - (s.now + api.elapsed (s.trace ++ [.ask .rateLimit])) + 5 ≤ slept pause) := by
  have hstart : outcome (awaitLimit api) n s = outcome _ n (s.after (.ask .rateLimit)) :=
    (outcome_bind_ok (outcome_ask_ok h) _).trans (outcome_bind_ok (outcome_get _) _)
  rw [hstart, backoff?]
  by_cases hlow : limit.remaining < lowLimit
  · rw [if_pos hlow]
    refine ⟨_, [.sleep _], rfl, rfl, rfl, ?_, by simp, fun _ => ?_⟩
    · simp [CrawlState.after]
    · exact le_of_eq (Nat.add_zero _).symm
  · rw [if_neg hlow]
    exact ⟨_, [], rfl, rfl, rfl, rfl, by simp, fun hfew => absurd hfew hlow⟩

/-! ### What is done -/

/-- All that is done on the way from one state to another is allowed. -/
def AllDone (allowed : CrawlAction → Prop) (s t : CrawlState) : Prop :=
  ∃ done, t.trace = s.trace ++ done ∧ ∀ action ∈ done, allowed action

/-- However far the part is followed it does what is allowed, and what it gives has the property. -/
def Does (allowed : CrawlAction → Prop) (m : Crawl α) (given : α → Prop) : Prop :=
  ∀ n s, AllDone allowed s (outcome m n s).2 ∧ ∀ a, (outcome m n s).1 = .ok a → given a

variable {allowed : CrawlAction → Prop}

theorem AllDone.refl (s : CrawlState) : AllDone allowed s s :=
  ⟨[], (List.append_nil _).symm, List.forall_mem_nil _⟩

theorem AllDone.trans {s t u : CrawlState} (h₁ : AllDone allowed s t) (h₂ : AllDone allowed t u) :
    AllDone allowed s u := by
  obtain ⟨first, hfirst, hallowed₁⟩ := h₁
  obtain ⟨more, hmore, hallowed₂⟩ := h₂
  exact ⟨first ++ more, by rw [hmore, hfirst, List.append_assoc],
    List.forall_mem_append.2 ⟨hallowed₁, hallowed₂⟩⟩

theorem allDone_one {s t : CrawlState} {action : CrawlAction} (htrace : t.trace = s.trace ++ [action])
    (h : allowed action) : AllDone allowed s t :=
  ⟨[action], htrace, List.forall_mem_singleton.2 h⟩

theorem AllDone.mono {allowed' : CrawlAction → Prop} {s t : CrawlState} (h : AllDone allowed s t)
    (hle : ∀ action, allowed action → allowed' action) : AllDone allowed' s t := by
  obtain ⟨done, htrace, hdone⟩ := h
  exact ⟨done, htrace, fun action haction => hle action (hdone action haction)⟩

namespace Does

variable {given : α → Prop} {given' : β → Prop}

theorem pure {a : α} (h : given a) : Does allowed (Pure.pure a) given := by
  intro n s
  refine ⟨.refl s, fun b hb => ?_⟩
  cases hb
  exact h

theorem unfinished : Does allowed (throw .unfinished : Crawl α) given := by
  intro n s
  refine ⟨.refl s, fun b hb => ?_⟩
  cases hb

/-- The second part may count on what the first gives. -/
theorem bind {m : Crawl α} {f : α → Crawl β} (hm : Does allowed m given)
    (hf : ∀ a, given a → Does allowed (f a) given') : Does allowed (m >>= f) given' := by
  intro n s
  obtain ⟨hdone, hgiven⟩ := hm n s
  cases hout : outcome m n s with
  | mk result t =>
    rw [hout] at hdone hgiven
    cases result with
    | ok a =>
      rw [outcome_bind_ok hout]
      obtain ⟨hmore, hlast⟩ := hf a (hgiven a rfl) n t
      exact ⟨hdone.trans hmore, hlast⟩
    | error e =>
      rw [outcome_bind_error hout]
      exact ⟨hdone, fun b hb => by cases hb⟩

theorem mono {m : Crawl α} {given₂ : α → Prop} (hm : Does allowed m given)
    (h : ∀ a, given a → given₂ a) : Does allowed m given₂ :=
  fun n s => ⟨(hm n s).1, fun a ha => h a ((hm n s).2 a ha)⟩

theorem weaken {allowed' : CrawlAction → Prop} {m : Crawl α} (hm : Does allowed m given)
    (h : ∀ action, allowed action → allowed' action) : Does allowed' m given :=
  fun n s => ⟨(hm n s).1.mono h, (hm n s).2⟩

theorem ask {request : ApiRequest} (h : allowed (.ask request))
    (answer : List CrawlAction → Except String α) :
    Does allowed (Crawl.ask request answer) fun a => ∃ earlier, answer earlier = .ok a := by
  intro n s
  cases hanswer : answer s.trace with
  | ok a =>
    rw [outcome_ask_ok hanswer]
    refine ⟨allDone_one rfl h, fun b hb => ?_⟩
    cases hb
    exact ⟨s.trace, hanswer⟩
  | error cause =>
    rw [outcome_ask_error hanswer]
    exact ⟨allDone_one rfl h, fun b hb => by cases hb⟩

theorem makeDirs {path : String} (h : allowed (.makeDirs path)) :
    Does allowed (Crawl.makeDirs path) fun _ => True := by
  intro n s
  rw [outcome_makeDirs]
  exact ⟨allDone_one rfl h, fun _ _ => trivial⟩

theorem write {path : String} (h : allowed (.write path)) (content : String) :
    Does allowed (Crawl.write path content) fun _ => True := by
  intro n s
  cases hdisk : s.disk.writeFile? path content with
  | some disk =>
    rw [outcome_write_some hdisk]
    exact ⟨allDone_one rfl h, fun _ _ => trivial⟩
  | none =>
    rw [outcome_write_none hdisk]
    exact ⟨allDone_one rfl h, fun _ _ => trivial⟩

theorem awaitLimit {api : RepoApi} (hask : allowed (.ask .rateLimit))
    (hsleep : ∀ seconds, allowed (.sleep seconds)) :
    Does allowed (Crawl.awaitLimit api) fun _ => True := by
  intro n s
  refine ⟨?_, fun _ _ => trivial⟩
  cases hlimit : api.rateLimit s.trace with
  | error cause =>
    rw [outcome_awaitLimit_error hlimit]
    exact allDone_one rfl hask
  | ok limit =>
    obtain ⟨t, pause, hout, -, -, htrace, hpause, -⟩ := outcome_awaitLimit_ok hlimit
    rw [hout]
    refine ⟨_, htrace, List.forall_mem_cons.2 ⟨hask, fun action haction => ?_⟩⟩
    obtain ⟨seconds, rfl⟩ := hpause action haction
    exact hsleep seconds

/-- The rounds are not an action. -/
theorem rounds {walk : Nat → Crawl α} (h : ∀ rounds, Does allowed (walk rounds) given) :
    Does allowed (read >>= walk) given := by
  intro n s
  rw [outcome_bind_ok (outcome_read s)]
  exact h n n s

/-- What is done before an error has been done. -/
theorem attempt {m : Crawl Unit} (hm : Does allowed m fun _ => True) :
    Does allowed (Crawl.attempt m) fun _ => True := by
  intro n s
  refine ⟨?_, fun _ _ => trivial⟩
  rw [outcome_attempt]
  exact (hm n s).1

end Does

end Crawl

end WorkflowAudit
