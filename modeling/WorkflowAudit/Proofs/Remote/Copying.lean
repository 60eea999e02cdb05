import WorkflowAudit.Proofs.Disk.Files
import WorkflowAudit.Proofs.Remote.Rounds
import WorkflowAudit.Proofs.Remote.Snapshot

/-!
Copying a branch. The entries that are still to be copied are places of the snapshot, and each place
below one of them is covered as often as the entries are above it. Main statement: if the service
answers from a snapshot and what is written can be written, then a copy of a branch has the files at or
below the selected path and an empty marker, each file is asked for once and each directory is listed
once.
-/

namespace WorkflowAudit.Crawl

open RepoTree

/-! ### Parts that come to their end -/

/-- Unless something cannot be written, the part ends within the rounds, with a result and a state that are
    related. -/
def Yields {α : Type} (m : Crawl α) (n : Nat) (s : CrawlState) (related : α → CrawlState → Prop) :
    Prop :=
  (∃ path, (outcome m n s).1 = .error (.failed (.unwritable path))) ∨
    ∃ a t, outcome m n s = (.ok a, t) ∧ related a t

section Yields

variable {α β : Type} {n : Nat} {s : CrawlState}

theorem Yields.pure {a : α} {related : α → CrawlState → Prop} (h : related a s) :
    Yields (Pure.pure a) n s related :=
  .inr ⟨a, s, rfl, h⟩

theorem Yields.bind {m : Crawl α} {f : α → Crawl β} {related : α → CrawlState → Prop}
    {related' : β → CrawlState → Prop} (hm : Yields m n s related)
    (hf : ∀ a t, related a t → Yields (f a) n t related') : Yields (m >>= f) n s related' := by
  rcases hm with ⟨path, herror⟩ | ⟨a, t, hout, hrelated⟩
  · refine .inl ⟨path, ?_⟩
    rw [outcome_bind_error (Prod.ext herror rfl)]
  · have hnext := hf a t hrelated
    rwa [Yields, ← outcome_bind_ok hout f] at hnext

theorem Yields.mono {m : Crawl α} {related related' : α → CrawlState → Prop} (hm : Yields m n s related)
    (h : ∀ a t, related a t → related' a t) : Yields m n s related' := by
  rcases hm with herror | ⟨a, t, hout, hrelated⟩
  · exact .inl herror
  · exact .inr ⟨a, t, hout, h a t hrelated⟩

theorem yields_ask {request : ApiRequest} {answer : List CrawlAction → Except String α}
    (h : ∀ earlier, ∃ a, answer earlier = .ok a) :
    Yields (ask request answer) n s fun a t =>
      answer s.trace = .ok a ∧ t = s.after (.ask request) := by
  obtain ⟨a, hanswer⟩ := h s.trace
  exact .inr ⟨a, _, outcome_ask_ok hanswer, hanswer, rfl⟩

theorem yields_makeDirs (path : String) :
    Yields (makeDirs path) n s fun _ t =>
      Disk.SameFiles s.disk t.disk ∧ t.trace = s.trace ++ [.makeDirs path] := by
  have hout := outcome_makeDirs (n := n) path s
  cases hmade : (s.disk.makeDirs path).2 with
  | true =>
    rw [hmade, if_pos rfl] at hout
    exact .inr ⟨(), _, hout, Disk.sameFiles_makeDirs s.disk path, rfl⟩
  | false =>
    rw [hmade, if_neg Bool.false_ne_true] at hout
    exact .inl ⟨path, by rw [hout]⟩

theorem yields_write (path text : String) :
    Yields (write path text) n s fun _ t =>
      t.disk.cwd = s.disk.cwd ∧
      (∀ p content, t.disk.root.HasFile p content ↔
        if p = Path.place s.disk.cwd path then content = text.toUTF8 else s.disk.root.HasFile p content) ∧
      t.trace = s.trace ++ [.write path] := by
  cases hdisk : s.disk.writeFile? path text with
  | some disk =>
    obtain ⟨hcwd, hfiles⟩ := Disk.hasFile_writeFile? hdisk
    exact .inr ⟨(), _, outcome_write_some hdisk, hcwd, hfiles, rfl⟩
  | none => exact .inl ⟨path, by rw [outcome_write_none hdisk]⟩

/-- The action waits, or asks whether to. -/
def IsWait (action : CrawlAction) : Prop :=
  action = .ask .rateLimit ∨ ∃ seconds, action = .sleep seconds

theorem IsWait.target? {action : CrawlAction} (h : IsWait action) : action.target? = none := by
  rcases h with rfl | ⟨seconds, rfl⟩ <;> rfl

/-- A wait changes nothing on the disk. -/
theorem yields_awaitLimit {api : RepoApi} (h : ∀ earlier, ∃ limit, api.rateLimit earlier = .ok limit) :
    Yields (awaitLimit api) n s fun _ t =>
      t.disk = s.disk ∧ ∃ waits, t.trace = s.trace ++ waits ∧ ∀ action ∈ waits, IsWait action := by
  obtain ⟨limit, hlimit⟩ := h s.trace
  obtain ⟨t, pause, hout, hdisk, -, htrace, hpause, -⟩ := outcome_awaitLimit_ok hlimit
  refine .inr ⟨(), t, hout, hdisk, _, htrace, List.forall_mem_cons.2 ⟨.inl rfl, fun action haction => ?_⟩⟩
  exact .inr (hpause action haction)

/-- What is at a path is given with the files as they were. -/
theorem yields_contentsAt {api : RepoApi} {options : CrawlOptions} {repo branch path : String}
    (hlimit : ∀ earlier, ∃ limit, api.rateLimit earlier = .ok limit)
    (hcontents : ∀ earlier, ∃ found, api.contents earlier options.org repo branch path = .ok found) :
    Yields (contentsAt api options repo branch path) n s fun found t =>
      (∃ earlier, api.contents earlier options.org repo branch path = .ok found) ∧
      t.disk = s.disk ∧ ∃ waits,
        t.trace = s.trace ++ (waits ++ [.ask (.contents options.org repo branch path)]) ∧
        ∀ action ∈ waits, IsWait action := by
  refine .bind (yields_awaitLimit hlimit) fun _ t ht => ?_
  obtain ⟨hdisk, waits, htrace, hwaits⟩ := ht
  refine (yields_ask hcontents).mono fun found u hu => ?_
  obtain ⟨hfound, rfl⟩ := hu
  refine ⟨⟨_, hfound⟩, hdisk, waits, ?_, hwaits⟩
  rw [CrawlState.after, htrace, List.append_assoc]

/-- If all can be written, a part that ends within some rounds gives its result in a run. -/
theorem Yields.run? {m : Crawl α} {related : α → CrawlState → Prop} (h : Yields m n s related)
    (hm : IsSteady m) (hwritable : ∀ path t, run? m s ≠ some (.error (.unwritable path), t)) :
    ∃ a t, Crawl.run? m s = some (.ok a, t) ∧ related a t := by
  rcases h with ⟨path, herror⟩ | ⟨a, t, hout, hrelated⟩
  · exact absurd (run?_eq_of_outcome hm herror) (hwritable path _)
  · exact ⟨a, t, (run?_eq_some_iff hm).2 ⟨n, hout⟩, hrelated⟩

end Yields

/-! ### Copied places -/

section Copied

variable (tree : RepoTree) (org repo branch : String)

/-- Each file is asked for and each directory is listed as often as is said of its place. -/
def Fetches (times : List String → Nat) (done : List CrawlAction) : Prop :=
  ∀ place,
    (∀ text, tree.find? place = some (.file text) →
      done.count (.ask (.rawFile org repo branch (Path.ofNames place))) = times place) ∧
    (∀ entries, tree.find? place = some (.dir entries) →
      done.count (.ask (.contents org repo branch (Path.ofNames place))) = times place)

/-- On the way from one state to another, the files at places that count more than once or once are
    written below the directory at `top`, and no other file changes. -/
structure Copied (top : List String) (times : List String → Nat) (s t : CrawlState) : Prop where
  cwd : t.disk.cwd = s.disk.cwd
  wanted : ∀ place text, tree.find? place = some (.file text) → ∀ content,
    t.disk.root.HasFile (top ++ place) content ↔
      if 0 < times place then content = text.toUTF8 else s.disk.root.HasFile (top ++ place) content
  others : ∀ p, (∀ place text, tree.find? place = some (.file text) → p ≠ top ++ place) → ∀ content,
    t.disk.root.HasFile p content ↔ s.disk.root.HasFile p content
  fetched : ∃ done, t.trace = s.trace ++ done ∧ Fetches tree org repo branch times done

/-- The place counts once and no other place counts. -/
def once (place : List String) : List String → Nat :=
  fun other => if other = place then 1 else 0

variable {tree org repo branch} {top : List String} {times more : List String → Nat}
  {n : Nat} {s t u : CrawlState}

theorem Fetches.append {first second : List CrawlAction}
    (h₁ : Fetches tree org repo branch times first) (h₂ : Fetches tree org repo branch more second) :
    Fetches tree org repo branch (fun place => times place + more place) (first ++ second) := by
  intro place
  refine ⟨fun text htext => ?_, fun entries hentries => ?_⟩
  · rw [List.count_append, (h₁ place).1 text htext, (h₂ place).1 text htext]
  · rw [List.count_append, (h₁ place).2 entries hentries, (h₂ place).2 entries hentries]

theorem Fetches.congr {done : List CrawlAction} (h : Fetches tree org repo branch times done)
    (hsame : ∀ place node, tree.find? place = some node → node.kind = .file ∨ node.kind = .dir →
      times place = more place) : Fetches tree org repo branch more done := by
  intro place
  refine ⟨fun text htext => ?_, fun entries hentries => ?_⟩
  · rw [(h place).1 text htext, hsame place _ htext (.inl rfl)]
  · rw [(h place).2 entries hentries, hsame place _ hentries (.inr rfl)]

theorem fetches_of_no_ask {done : List CrawlAction} (h : ∀ request, CrawlAction.ask request ∉ done) :
    Fetches tree org repo branch (fun _ => 0) done :=
  fun _ => ⟨fun _ _ => List.count_eq_zero.2 (h _), fun _ _ => List.count_eq_zero.2 (h _)⟩

theorem fetches_waits {waits : List CrawlAction} (h : ∀ action ∈ waits, IsWait action) :
    Fetches tree org repo branch (fun _ => 0) waits := by
  intro place
  refine ⟨fun _ _ => List.count_eq_zero.2 fun hmem => ?_, fun _ _ => List.count_eq_zero.2 fun hmem => ?_⟩
  · simpa [IsWait] using h _ hmem
  · simpa [IsWait] using h _ hmem

theorem fetches_rawFile {place : List String} {text : String}
    (h : tree.find? place = some (.file text)) :
    Fetches tree org repo branch (once place)
      [.ask (.rawFile org repo branch (Path.ofNames place))] := by
  intro other
  refine ⟨fun text' htext' => ?_, fun entries hentries => ?_⟩
  · rw [List.count_singleton, once, eq_comm]
    refine if_congr ?_ rfl rfl
    rw [beq_iff_eq, CrawlAction.ask.injEq, ApiRequest.rawFile.injEq]
    simp only [true_and]
    rw [Path.ofNames_inj (names_of_find? h) (names_of_find? htext')]
    exact eq_comm
  · have hne : other ≠ place := by
      rintro rfl
      rw [h] at hentries
      cases hentries
    rw [once, if_neg hne, List.count_eq_zero]
    simp

theorem fetches_contents {place : List String} {listed : List (String × RepoNode)}
    (h : tree.find? place = some (.dir listed)) :
    Fetches tree org repo branch (once place)
      [.ask (.contents org repo branch (Path.ofNames place))] := by
  intro other
  refine ⟨fun text htext => ?_, fun entries hentries => ?_⟩
  · have hne : other ≠ place := by
      rintro rfl
      rw [h] at htext
      cases htext
    rw [once, if_neg hne, List.count_eq_zero]
    simp
  · rw [List.count_singleton, once, eq_comm]
    refine if_congr ?_ rfl rfl
    rw [beq_iff_eq, CrawlAction.ask.injEq, ApiRequest.contents.injEq]
    simp only [true_and]
    rw [Path.ofNames_inj (names_of_find? h) (names_of_find? hentries)]
    exact eq_comm

/-- A listing of what is no directory does not count. -/
theorem fetches_contents_leaf {place : List String} (hnames : ∀ name ∈ place, Path.IsName name)
    (h : ∀ entries, tree.find? place ≠ some (.dir entries)) :
    Fetches tree org repo branch (fun _ => 0)
      [.ask (.contents org repo branch (Path.ofNames place))] := by
  intro other
  refine ⟨fun _ _ => List.count_eq_zero.2 (by simp), fun entries hentries => ?_⟩
  refine List.count_eq_zero.2 fun hmem => h entries ?_
  rw [List.mem_singleton, CrawlAction.ask.injEq, ApiRequest.contents.injEq] at hmem
  rw [← (Path.ofNames_inj (names_of_find? hentries) hnames).1 hmem.2.2.2, hentries]

theorem Copied.refl : Copied tree org repo branch top (fun _ => 0) s s where
  cwd := rfl
  wanted _ _ _ _ := by simp
  others _ _ _ := Iff.rfl
  fetched := ⟨[], (List.append_nil _).symm, fetches_of_no_ask fun _ h => by cases h⟩

theorem Copied.trans (h₁ : Copied tree org repo branch top times s t)
    (h₂ : Copied tree org repo branch top more t u) :
    Copied tree org repo branch top (fun place => times place + more place) s u where
  cwd := h₂.cwd.trans h₁.cwd
  wanted place text htext content := by
    rw [h₂.wanted place text htext, h₁.wanted place text htext]
    by_cases hmore : 0 < more place
    · rw [if_pos hmore, if_pos (by omega)]
    · rw [if_neg hmore, Nat.eq_zero_of_not_pos hmore, Nat.add_zero]
  others p hp content := (h₂.others p hp content).trans (h₁.others p hp content)
  fetched := by
    obtain ⟨first, hfirst, hfetches₁⟩ := h₁.fetched
    obtain ⟨second, hsecond, hfetches₂⟩ := h₂.fetched
    exact ⟨first ++ second, by rw [hsecond, hfirst, List.append_assoc], hfetches₁.append hfetches₂⟩

theorem Copied.congr (h : Copied tree org repo branch top times s t)
    (hsame : ∀ place node, tree.find? place = some node → node.kind = .file ∨ node.kind = .dir →
      times place = more place) : Copied tree org repo branch top more s t where
  cwd := h.cwd
  wanted place text htext content := by
    rw [h.wanted place text htext, hsame place _ htext (.inl rfl)]
  others := h.others
  fetched := by
    obtain ⟨done, hdone, hfetches⟩ := h.fetched
    exact ⟨done, hdone, hfetches.congr hsame⟩

/-! ### One entry -/

variable {api : RepoApi} {options : CrawlOptions}

/-- The file that was asked for is written once its directories are made. -/
theorem yields_writeFile {place : List String} {text : String}
    (h : tree.find? place = some (.file text)) {dir : String} (htop : Path.place s.disk.cwd dir = top)
    (hsame : Disk.SameFiles s.disk t.disk) {made : List CrawlAction}
    (hmade : t.trace = s.trace ++ ([.ask (.rawFile org repo branch (Path.ofNames place))] ++ made))
    (hquiet : ∀ request, CrawlAction.ask request ∉ made) :
    Yields (write (Path.join dir (Path.ofNames place)) text) n t fun _ u =>
      Copied tree org repo branch top (once place) s u := by
  refine (yields_write _ _).mono fun _ u hu => ?_
  obtain ⟨hcwd, hfiles, htrace⟩ := hu
  rw [hsame.1, Path.place_join_ofNames (names_of_find? h), htop] at hfiles
  have hquiet' : Fetches tree org repo branch (fun _ => 0)
      (made ++ [.write (Path.join dir (Path.ofNames place))]) :=
    fetches_of_no_ask fun request hmem => by simp [hquiet] at hmem
  refine ⟨hcwd.trans hsame.1, fun other text' htext' content => ?_, fun p hp content => ?_,
    _, ?_, (fetches_rawFile h).append hquiet'⟩
  · rw [hfiles, once, hsame.2]
    by_cases hother : other = place
    · subst hother
      rw [h, Option.some.injEq, RepoNode.file.injEq] at htext'
      simp [htext']
    · simp [hother]
  · rw [hfiles, if_neg (hp place text h), hsame.2]
  · simp [htrace, hmade]

theorem yields_copyFile (hserves : api.Serves options.org repo branch tree) {place : List String}
    {text : String} (h : tree.find? place = some (.file text)) {dir : String}
    (htop : Path.place s.disk.cwd dir = top) :
    Yields (copyFile api options repo branch dir (Path.ofNames place)) n s fun _ t =>
      Copied tree options.org repo branch top (once place) s t := by
  have htext (earlier : List CrawlAction) := hserves.text earlier place text h
  refine .bind (yields_ask fun earlier => ⟨_, htext earlier⟩) fun found t ht => ?_
  obtain ⟨hfound, rfl⟩ := ht
  rw [htext, Except.ok.injEq] at hfound
  subst hfound
  -- What is done before the file is written, if anything, makes directories.
  cases hparent : Path.parent? (Path.join dir (Path.ofNames place)) with
  | none =>
    simp only [hparent]
    exact yields_writeFile h htop (.refl _) rfl (by simp)
  | some parent =>
    simp only [hparent]
    refine .bind (yields_makeDirs parent) fun _ v hv => ?_
    have hmade : v.trace = s.trace ++
        ([.ask (.rawFile options.org repo branch (Path.ofNames place))] ++ [.makeDirs parent]) := by
      rw [hv.2]
      simp [CrawlState.after]
    exact yields_writeFile h htop hv.1 hmade (by simp)

theorem copied_of_listed {place : List String} {entries : List (String × RepoNode)}
    (h : tree.find? place = some (.dir entries)) (hdisk : t.disk = s.disk) {waits : List CrawlAction}
    (htrace : t.trace = s.trace ++ (waits ++ [.ask (.contents org repo branch (Path.ofNames place))]))
    (hwaits : ∀ action ∈ waits, IsWait action) :
    Copied tree org repo branch top (once place) s t where
  cwd := by rw [hdisk]
  wanted other text htext content := by
    have hne : other ≠ place := by
      rintro rfl
      rw [h] at htext
      cases htext
    simp [once, hne, hdisk]
  others _ _ _ := by rw [hdisk]
  fetched := by
    refine ⟨_, htrace, ((fetches_waits hwaits).append (fetches_contents h)).congr fun _ _ _ _ => ?_⟩
    exact Nat.zero_add _

/-! ### All entries -/

theorem covering_cons (item : List String × RepoNode) (items : List (List String × RepoNode))
    (place : List String) :
    covering (item :: items) place = (if item.1 <+: place then 1 else 0) + covering items place := by
  rw [covering, List.countP_cons, Nat.add_comm, covering]
  simp

theorem covering_append (items more : List (List String × RepoNode)) (place : List String) :
    covering (items ++ more) place = covering items place + covering more place :=
  List.countP_append ..

theorem covering_perm {items more : List (List String × RepoNode)} (h : items.Perm more)
    (place : List String) : covering items place = covering more place :=
  h.countP_eq _

/-- Nothing is below what is no directory. -/
theorem eq_of_lead {place other : List String} {node : RepoNode} (h : tree.find? place = some node)
    (hkind : node.kind ≠ .dir) (hother : tree.find? other ≠ none) (hlead : place <+: other) :
    other = place := by
  obtain ⟨rest, rfl⟩ := hlead
  cases rest with
  | nil => exact List.append_nil _
  | cons name rest =>
    rw [find?] at h hother
    rw [RepoNode.find?_append, h, Option.bind_some, RepoNode.find?] at hother
    cases node with
    | dir entries => exact absurd rfl hkind
    | file text => exact absurd rfl hother
    | symlink => exact absurd rfl hother
    | submodule => exact absurd rfl hother

theorem covering_cons_leaf {place other : List String} {node : RepoNode}
    (h : tree.find? place = some node) (hkind : node.kind ≠ .dir) (hother : tree.find? other ≠ none)
    (items : List (List String × RepoNode)) :
    covering ((place, node) :: items) other = once place other + covering items other := by
  rw [covering_cons, once]
  congr 1
  refine if_congr ⟨eq_of_lead h hkind hother, ?_⟩ rfl rfl
  rintro rfl
  exact List.prefix_refl _

/-- An entry that is no file and no directory covers nothing that is copied. -/
theorem covering_cons_skipped {place other : List String} {node found : RepoNode}
    (h : tree.find? place = some node) (hfile : node.kind ≠ .file) (hdir : node.kind ≠ .dir)
    (hother : tree.find? other = some found) (hkind : found.kind = .file ∨ found.kind = .dir)
    (items : List (List String × RepoNode)) :
    covering ((place, node) :: items) other = covering items other := by
  have hne : other ≠ place := by
    rintro rfl
    rw [h, Option.some.injEq] at hother
    subst hother
    exact hkind.elim hfile hdir
  rw [covering_cons_leaf h hdir (by simp [hother]), once, if_neg hne, Nat.zero_add]

theorem covering_cons_dir {place other : List String} {entries listed : List (String × RepoNode)}
    (h : tree.find? place = some (.dir entries)) (hlisted : listed.Perm entries)
    (hother : tree.find? other ≠ none) (items : List (List String × RepoNode)) :
    covering ((place, .dir entries) :: items) other =
      once place other + covering ((located place listed).reverse ++ items) other := by
  have hlocated : (located place listed).Perm (located place entries) := hlisted.map _
  rw [covering_cons, covering_append, covering_perm (List.reverse_perm _), covering_perm hlocated,
    ← Nat.add_assoc, once]
  congr 1
  exact (covering_located h hother).symm

theorem sum_count_located {place : List String} {entries listed : List (String × RepoNode)}
    (h : listed.Perm entries) :
    (((located place listed).reverse.map fun item => item.2.count)).sum = RepoNode.countAll entries := by
  rw [RepoNode.countAll_eq_sum, List.map_reverse, List.sum_reverse, located, List.map_map]
  exact (h.map _).sum_eq

theorem copyEntriesFor_cons {place : List String} {node : RepoNode} (h : tree.find? place = some node)
    (hne : place ≠ []) (dir : String) (rounds : Nat) (pending : List Entry) :
    copyEntriesFor api options repo branch dir (rounds + 1) (node.entryAt place :: pending) =
      match node.kind with
      | .file => do
        copyFile api options repo branch dir (Path.ofNames place)
        copyEntriesFor api options repo branch dir rounds pending
      | .dir => do
        let found ← contentsAt api options repo branch (Path.ofNames place)
        copyEntriesFor api options repo branch dir rounds
          (((found.map Contents.entries).getD []).reverse ++ pending)
      | .symlink | .submodule => copyEntriesFor api options repo branch dir rounds pending := by
  rw [copyEntriesFor, RepoNode.entryAt, isSafe_ofNames hne (names_of_find? h)]
  rfl

/-- The entries that a listing is read as. -/
theorem entries_of_serves (hserves : api.Serves options.org repo branch tree) {place : List String}
    {entries : List (String × RepoNode)} (h : tree.find? place = some (.dir entries))
    {earlier : List CrawlAction} {found : Option Contents}
    (hfound : api.contents earlier options.org repo branch (Path.ofNames place) = .ok found) :
    ∃ listed, listed.Perm entries ∧ ((found.map Contents.entries).getD []).reverse =
      (located place listed).reverse.map fun item => item.2.entryAt item.1 := by
  obtain ⟨listed, hperm, hlisted⟩ := hserves.directory earlier place entries h
  rw [hlisted, Except.ok.injEq] at hfound
  subst hfound
  exact ⟨listed, hperm, List.map_reverse.symm⟩

/-- The walk takes the last entry that it knows of, so a directory is followed by its entries. Each of
    its steps covers the place of one entry, and the entries that are left cover the other places. -/
theorem yields_copyEntriesFor (hserves : api.Serves options.org repo branch tree) {dir : String}
    (rounds : Nat) (items : List (List String × RepoNode))
    (hitems : ∀ item ∈ items, tree.find? item.1 = some item.2 ∧ item.1 ≠ [])
    (hcount : (items.map fun item => item.2.count).sum ≤ rounds) (s : CrawlState)
    (htop : Path.place s.disk.cwd dir = top) :
    Yields (copyEntriesFor api options repo branch dir rounds
        (items.map fun item => item.2.entryAt item.1)) n s fun _ t =>
      Copied tree options.org repo branch top (covering items) s t := by
  induction rounds generalizing items s with
  | zero =>
    cases items with
    | nil => exact .pure .refl
    | cons item items =>
      have hpos := item.2.count_pos
      rw [List.map_cons, List.sum_cons] at hcount
      omega
  | succ rounds ih =>
    cases items with
    | nil => exact .pure .refl
    | cons item items =>
      obtain ⟨place, node⟩ := item
      obtain ⟨⟨hfind, hne⟩, hrest⟩ := List.forall_mem_cons.1 hitems
      have hpos := node.count_pos
      simp only [List.map_cons, List.sum_cons] at hcount
      rw [List.map_cons, copyEntriesFor_cons hfind hne]
      have hskip (hfile : node.kind ≠ .file) (hdir : node.kind ≠ .dir) :
          Yields (copyEntriesFor api options repo branch dir rounds
              (items.map fun item => item.2.entryAt item.1)) n s fun _ t =>
            Copied tree options.org repo branch top (covering ((place, node) :: items)) s t := by
        refine (ih items hrest (by omega) s htop).mono fun _ u hu => hu.congr ?_
        intro other found hother hkind
        exact (covering_cons_skipped hfind hfile hdir hother hkind items).symm
      cases node with
      | file text =>
        refine .bind (yields_copyFile hserves hfind htop) fun _ t ht => ?_
        refine (ih items hrest (by omega) t (by rw [ht.cwd, htop])).mono fun _ u hu => ?_
        refine (ht.trans hu).congr fun other found hother _ => ?_
        exact (covering_cons_leaf hfind (by simp [RepoNode.kind]) (by simp [hother]) items).symm
      | dir entries =>
        refine .bind (yields_contentsAt hserves.rateLimit (hserves.exists_contents hfind))
          fun found t ht => ?_
        obtain ⟨⟨earlier, hfound⟩, hdisk, waits, htrace, hwaits⟩ := ht
        obtain ⟨listed, hperm, hlisted⟩ := entries_of_serves hserves hfind hfound
        rw [hlisted, ← List.map_append]
        have hlocated := List.forall_mem_append.2 ⟨find?_of_mem_located hfind hperm, hrest⟩
        refine (ih _ hlocated ?_ t (by rw [hdisk, htop])).mono fun _ u hu => ?_
        · rw [RepoNode.count] at hcount
          rw [List.map_append, List.sum_append, sum_count_located hperm]
          omega
        · refine ((copied_of_listed hfind hdisk htrace hwaits).trans hu).congr
            fun other found hother _ => ?_
          exact (covering_cons_dir hfind hperm (by simp [hother]) items).symm
      | symlink => exact hskip (by simp [RepoNode.kind]) (by simp [RepoNode.kind])
      | submodule => exact hskip (by simp [RepoNode.kind]) (by simp [RepoNode.kind])

theorem yields_copyEntries (hserves : api.Serves options.org repo branch tree) {dir : String}
    (items : List (List String × RepoNode))
    (hitems : ∀ item ∈ items, tree.find? item.1 = some item.2 ∧ item.1 ≠ [])
    (hcount : (items.map fun item => item.2.count).sum ≤ n) (s : CrawlState)
    (htop : Path.place s.disk.cwd dir = top) :
    Yields (copyEntries api options repo branch dir (items.map fun item => item.2.entryAt item.1)) n s
      fun _ t => Copied tree options.org repo branch top (covering items) s t := by
  rw [copyEntries, Yields, outcome_bind_ok (outcome_read s)]
  exact yields_copyEntriesFor hserves n items hitems hcount s htop

/-! ### The whole branch -/

variable (tree) in
/-- The files below a place are an empty marker and the files at or below the selected place. -/
def HoldsCopy (root : FileTree) (top selected : List String) : Prop :=
  ∀ place content, root.HasFile (top ++ place) content ↔
    (place = [".git"] ∧ content = "".toUTF8) ∨
    (selected <+: place ∧ ∃ text, tree.find? place = some (.file text) ∧ content = text.toUTF8)

variable {selected : List String}

theorem find?_of_lead {place : List String} (hlead : selected <+: place)
    (h : tree.find? place ≠ none) : tree.find? selected ≠ none := by
  obtain ⟨rest, rfl⟩ := hlead
  rw [find?, RepoNode.find?_append] at h
  rintro hnone
  rw [find?] at hnone
  simp [hnone] at h

/-- A directory that was not there has a marker and no other file once the marker is written. -/
theorem hasFile_marker_iff {root root' : FileTree}
    (hfresh : ∀ entries, root.find? top ≠ some (.dir entries))
    (hfiles : ∀ p content, root'.HasFile p content ↔
      if p = top ++ [".git"] then content = "".toUTF8 else root.HasFile p content)
    (place : List String) (content : ByteArray) :
    root'.HasFile (top ++ place) content ↔ place = [".git"] ∧ content = "".toUTF8 := by
  by_cases hplace : place = [".git"]
  · rw [hfiles, hplace, if_pos rfl]
    simp
  · refine ⟨fun h => ?_, fun h => absurd h.1 hplace⟩
    cases place with
    | nil =>
      have hmarker : root'.HasFile (top ++ [".git"]) "".toUTF8 := by rw [hfiles, if_pos rfl]
      rw [List.append_nil] at h
      exact absurd h (FileTree.not_hasFile_of_append (List.cons_ne_nil _ _) hmarker content)
    | cons name place =>
      rw [hfiles, if_neg fun heq => hplace (List.append_cancel_left heq)] at h
      obtain ⟨entries, hentries⟩ := FileTree.exists_dir_of_append (List.cons_ne_nil name place) h
      exact absurd hentries (hfresh entries)

/-- A copy of the files at or below the selected place, into a directory that has a marker and no other
    file, is complete. -/
theorem Copied.holdsCopy (h : Copied tree org repo branch top times s t)
    (htimes : ∀ place text, tree.find? place = some (.file text) →
      (0 < times place ↔ selected <+: place))
    (hmarker : ∀ place content, s.disk.root.HasFile (top ++ place) content ↔
      place = [".git"] ∧ content = "".toUTF8) : HoldsCopy tree t.disk.root top selected := by
  intro place content
  by_cases hfile : ∃ text, tree.find? place = some (.file text)
  · obtain ⟨text, htext⟩ := hfile
    have hne : place ≠ [".git"] := by
      rintro rfl
      rw [find?_marker] at htext
      cases htext
    rw [h.wanted place text htext, hmarker, htext]
    by_cases hlead : selected <+: place
    · simp [(htimes place text htext).2 hlead, hlead, hne]
    · simp [mt (htimes place text htext).1 hlead, hlead, hne]
  · have hothers : ∀ other text, tree.find? other = some (.file text) → top ++ place ≠ top ++ other := by
      intro other text htext heq
      rw [← List.append_cancel_left heq] at htext
      exact hfile ⟨text, htext⟩
    rw [h.others _ hothers, hmarker]
    refine ⟨.inl, fun hcopy => hcopy.resolve_right ?_⟩
    rintro ⟨-, text, htext, -⟩
    exact hfile ⟨text, htext⟩

/-- The entries that a copy starts from cover, with what is listed to find them, the places at or below
    the selected one. -/
theorem exists_items (hserves : api.Serves options.org repo branch tree) {node : RepoNode}
    (h : tree.find? selected = some node) {earlier : List CrawlAction} {found : Option Contents}
    (hfound : api.contents earlier options.org repo branch (Path.ofNames selected) = .ok found) :
    ∃ contents items times, found = some contents ∧
      contents.entries.reverse = items.map (fun item => item.2.entryAt item.1) ∧
      (∀ item ∈ items, tree.find? item.1 = some item.2 ∧ item.1 ≠ []) ∧
      (items.map fun item => item.2.count).sum ≤ node.count ∧
      Fetches tree options.org repo branch times
        [.ask (.contents options.org repo branch (Path.ofNames selected))] ∧
      (∀ place text, tree.find? place = some (.file text) → times place = 0) ∧
      ∀ place, tree.find? place ≠ none →
        times place + covering items place = if selected <+: place then 1 else 0 := by
  by_cases hkind : node.kind = .dir
  · obtain ⟨entries, rfl⟩ := RepoNode.exists_entries hkind
    obtain ⟨listed, hperm, hlisted⟩ := hserves.directory earlier selected entries h
    rw [hlisted, Except.ok.injEq] at hfound
    refine ⟨_, (located selected listed).reverse, once selected, hfound.symm, List.map_reverse.symm,
      find?_of_mem_located h hperm, ?_, fetches_contents h, fun place text htext => ?_,
      fun place hplace => ?_⟩
    · rw [sum_count_located hperm, RepoNode.count]
      omega
    · refine if_neg ?_
      rintro rfl
      rw [h] at htext
      cases htext
    · have hcover := covering_cons_dir h hperm hplace []
      rw [List.append_nil, covering_cons] at hcover
      exact hcover.symm
  · have hdir (entries : List (String × RepoNode)) : node ≠ .dir entries := by
      rintro rfl
      exact hkind rfl
    have hne : selected ≠ [] := by
      rintro rfl
      exact hdir tree.entries (Option.some.inj h).symm
    rw [hserves.other earlier selected node h hkind, Except.ok.injEq] at hfound
    refine ⟨_, [(selected, node)], fun _ => 0, hfound.symm, rfl, by simpa using ⟨h, hne⟩, by simp,
      fetches_contents_leaf (names_of_find? h) fun entries hentries => ?_, fun _ _ _ => rfl,
      fun place _ => ?_⟩
    · rw [h, Option.some.injEq] at hentries
      exact hdir entries hentries
    · rw [Nat.zero_add, covering_cons]
      rfl

theorem yields_copyBranch_of_nothing (hserves : api.Serves options.org repo branch tree)
    (hpath : options.path = Path.ofNames selected) (hnames : ∀ name ∈ selected, Path.IsName name)
    (h : tree.find? selected = none) (s : CrawlState) :
    Yields (copyBranch api options repo branch) n s fun _ t =>
      t.disk = s.disk ∧ ∃ done, t.trace = s.trace ++ done ∧
        (∀ action ∈ done, action.target? = none) ∧
        Fetches tree options.org repo branch (fun _ => 0) done := by
  have hnothing (earlier : List CrawlAction) := hserves.nothing earlier selected hnames h
  rw [copyBranch, hpath]
  refine .bind (yields_contentsAt hserves.rateLimit fun earlier => ⟨_, hnothing earlier⟩)
    fun found t ht => ?_
  obtain ⟨⟨earlier, hfound⟩, hdisk, waits, htrace, hwaits⟩ := ht
  rw [hnothing, Except.ok.injEq] at hfound
  subst hfound
  refine .pure ⟨hdisk, _, htrace, ?_, (fetches_waits hwaits).append
    (fetches_contents_leaf hnames (by simp [h]))⟩
  exact List.forall_mem_append.2 ⟨fun action haction => (hwaits action haction).target?,
    List.forall_mem_singleton.2 rfl⟩

theorem yields_copyBranch_of_some (hserves : api.Serves options.org repo branch tree)
    (hpath : options.path = Path.ofNames selected) (hrounds : tree.count ≤ n)
    {node : RepoNode} (h : tree.find? selected = some node) (s : CrawlState)
    (htop : Path.place s.disk.cwd (branchDir options repo branch) = top)
    (hfresh : ∀ entries, s.disk.root.find? top ≠ some (.dir entries)) :
    Yields (copyBranch api options repo branch) n s fun _ t =>
      HoldsCopy tree t.disk.root top selected ∧ ∃ done, t.trace = s.trace ++ done ∧
        Fetches tree options.org repo branch (fun place => if selected <+: place then 1 else 0)
          done := by
  rw [copyBranch, hpath]
  refine .bind (yields_contentsAt hserves.rateLimit (hserves.exists_contents h)) fun found t ht => ?_
  obtain ⟨⟨earlier, hfound⟩, hdisk, waits, htrace, hwaits⟩ := ht
  obtain ⟨contents, items, times, rfl, hentries, hitems, hcount, hfetches, hfiles, hcover⟩ :=
    exists_items hserves h hfound
  have henough : (items.map fun item => item.2.count).sum ≤ n :=
    hcount.trans ((RepoNode.count_find?_le h).trans hrounds)
  refine .bind (yields_makeDirs (branchDir options repo branch)) fun _ u hu => ?_
  obtain ⟨hsame, htrace'⟩ := hu
  refine .bind (yields_write (Path.join (branchDir options repo branch) ".git") "") fun _ v hv => ?_
  obtain ⟨hcwd, hwritten, htrace''⟩ := hv
  have hplace : Path.place u.disk.cwd (Path.join (branchDir options repo branch) ".git") =
      top ++ [".git"] := by
    have hname : ∀ name ∈ [".git"], Path.IsName name := by decide
    rw [hsame.1, hdisk, ← htop, ← Path.place_join_ofNames hname]
    rfl
  have hmarker := hasFile_marker_iff hfresh fun p content => by
    rw [hwritten p content, hplace, hsame.2 p content, hdisk]
  have hdone : Fetches tree options.org repo branch (fun _ => 0)
      [.makeDirs (branchDir options repo branch),
        .write (Path.join (branchDir options repo branch) ".git")] :=
    fetches_of_no_ask (by simp)
  have htop' : Path.place v.disk.cwd (branchDir options repo branch) = top := by
    rw [hcwd, hsame.1, hdisk, htop]
  rw [hentries]
  refine (yields_copyEntries hserves items hitems henough v htop').mono fun _ w hw => ?_
  obtain ⟨copied, hcopied, hfetched⟩ := hw.fetched
  refine ⟨hw.holdsCopy (fun place text htext => ?_) hmarker, _, ?_, (((fetches_waits hwaits).append
    hfetches).append (hdone.append hfetched)).congr fun place node hnode _ => ?_⟩
  · have hone := hcover place (by simp [htext])
    rw [hfiles place text htext, Nat.zero_add] at hone
    rw [hone]
    split <;> simp_all
  · rw [hcopied, htrace'', htrace', htrace]
    simp
  · have hone := hcover place (by simp [hnode])
    omega

end Copied

variable {api : RepoApi} {options : CrawlOptions} {repo branch : String} {tree : RepoTree}
  {selected : List String} {s : CrawlState}

/-- If the service answers from a snapshot, the directory of the branch is not there and what is written
    can be written, then a copy of the branch ends. Where nothing is at the selected path it touches
    nothing. Otherwise the files below the directory are the empty marker and the files at or below
    the selected path, each with its text. Each of these files is asked for once, each directory at or
    below the path is listed once, and no other is. -/
theorem copyBranch_copies_selected (hserves : api.Serves options.org repo branch tree)
    (hpath : options.path = Path.ofNames selected) (hnames : ∀ name ∈ selected, Path.IsName name)
    (hfresh : ∀ entries, s.disk.root.find?
      (Path.place s.disk.cwd (branchDir options repo branch)) ≠ some (.dir entries))
    (hwritable : ∀ path t,
      run? (copyBranch api options repo branch) s ≠ some (.error (.unwritable path), t)) :
    ∃ t done, run? (copyBranch api options repo branch) s = some (.ok (), t) ∧
      t.trace = s.trace ++ done ∧
      Fetches tree options.org repo branch (fun place => if selected <+: place then 1 else 0) done ∧
      (tree.find? selected = none → t.disk = s.disk ∧ ∀ action ∈ done, action.target? = none) ∧
      (tree.find? selected ≠ none → HoldsCopy tree t.disk.root
        (Path.place s.disk.cwd (branchDir options repo branch)) selected) := by
  have hsteady := isSteady_copyBranch api options repo branch
  cases hnode : tree.find? selected with
  | none =>
    obtain ⟨_, t, hrun, hdisk, done, htrace, htargets, hfetches⟩ :=
      (yields_copyBranch_of_nothing (n := 0) hserves hpath hnames hnode s).run? hsteady hwritable
    refine ⟨t, done, hrun, htrace, hfetches.congr fun place node hplace _ => ?_,
      fun _ => ⟨hdisk, htargets⟩, fun h => absurd rfl h⟩
    -- Nothing is below a place where nothing is.
    refine (if_neg fun hlead => ?_).symm
    exact find?_of_lead hlead (by simp [hplace]) hnode
  | some node =>
    obtain ⟨_, t, hrun, hcopy, done, htrace, hfetches⟩ :=
      (yields_copyBranch_of_some hserves hpath le_rfl hnode s rfl hfresh).run? hsteady hwritable
    refine ⟨t, done, hrun, htrace, hfetches, fun hnone => ?_, fun _ => hcopy⟩
    cases hnone

/-- A branch with workflows in two directories, and with more beside them. -/
def nestedTree : RepoTree where
  entries := [
    ("README.md", .file "hello"),
    (".github", .dir [("workflows", .dir [
      ("b.yml", .file "on: push"),
      ("more", .dir [("a.yml", .file "")]),
      ("latest.yml", .symlink)])]),
    ("lib", .submodule)]
  wellNamed := by decide
  noMarker := by decide

theorem nestedTree_is_copied :
    let options : CrawlOptions := { org := "acme", path := ".github/workflows", outputDir := "out" }
    let s : CrawlState := { disk := ⟨.empty, []⟩ }
    ∃ t done, run? (copyBranch nestedTree.api options "api" "main") s = some (.ok (), t) ∧
      t.trace = [] ++ done ∧
      done.count (.ask (.rawFile "acme" "api" "main" ".github/workflows/more/a.yml")) = 1 ∧
      HoldsCopy nestedTree t.disk.root ["out", "api", "main"] [".github", "workflows"] := by
  intro options s
  have hplace : Path.place s.disk.cwd (branchDir options "api" "main") = ["out", "api", "main"] := by
    decide +kernel
  have hfresh : ∀ entries,
      s.disk.root.find? (Path.place s.disk.cwd (branchDir options "api" "main")) ≠
        some (.dir entries) := by
    intro entries h
    rw [hplace] at h
    cases h
  have hok : (outcome (copyBranch nestedTree.api options "api" "main") 5 s).1 = .ok () := by
    decide +kernel
  have hwritable : ∀ path t,
      run? (copyBranch nestedTree.api options "api" "main") s ≠ some (.error (.unwritable path), t) := by
    have hend : run? (copyBranch nestedTree.api options "api" "main") s = some (.ok (), _) :=
      run?_eq_of_outcome (isSteady_copyBranch _ _ _ _) hok
    intro path t h
    rw [hend] at h
    cases h
  have hpath : options.path = Path.ofNames [".github", "workflows"] := by decide +kernel
  obtain ⟨t, done, hrun, htrace, hfetches, -, hcopy⟩ :=
    copyBranch_copies_selected (nestedTree.serves_api "acme" "api" "main") hpath (by decide)
      hfresh hwritable
  refine ⟨t, done, hrun, htrace, ?_, hplace ▸ hcopy (by decide +kernel)⟩
  exact (hfetches [".github", "workflows", "more", "a.yml"]).1 "" rfl

end WorkflowAudit.Crawl
