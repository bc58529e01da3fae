import Gem5Cxl.MsiDirStep
/-!
# MsiRun — runs of the MSI protocol

Every line of a system that has run without failing is as a coherent scene has it.  So a cache in `M` has the line alone,
and a load delivers what was stored last; and a run fails only where the directory takes a `PutS` for the last one.
-/
namespace Gem5.Msi

variable {C D L V : Type} [DecidableEq C] [DecidableEq D] [DecidableEq L] [Inhabited V]

/-! ## One line -/

section Line

omit [DecidableEq D] [DecidableEq L]

def Line.Race (s : Line C V) : LineEvent C V → Prop
  | .request c => ∃ rest, s.request c = .putS :: rest ∧ PutSRace s.dir c
  | _ => False

variable {e : LineEvent C V} {s : Line C V}

theorem Line.step_lands {k : Scene C V} (h : Holds s k) (hrace : ¬ s.Race e) : Lands k.cur (s.step e) := by
  cases e with
  | load c => exact load_lands h c
  | store c value => exact store_lands h c value
  | replacement c => exact replacement_lands h c
  | forward c => exact forward_lands h c
  | response sender c value =>
    cases sender with
    | directory => exact responseD_lands h c value
    | cache x => exact responseC_lands h x c value
  | request c => exact request_lands h c fun rest hq hr => hrace ⟨rest, hq, hr⟩
  | toDir c => exact toDir_lands h c
  | memory i => exact memory_lands h i
  | memQueue => exact memQueue_lands h

theorem Line.step_fails (hrace : s.Race e) : ∃ f, s.step e = .error f := by
  cases e with
  | request c =>
    obtain ⟨rest, hq, hr⟩ := hrace
    exact request_fails hq hr
  | _ => exact hrace.elim

def Scene.create (v : V) : Scene C V where
  role _ := .idle
  ack _ := none
  toDir := none
  mq := .idle
  cur := v

omit [DecidableEq C] [Inhabited V] in
theorem Coherent.create (v : V) : Coherent (C := C) {} (Scene.create v).standings none .idle where
  head_token c hc := absurd rfl hc
  head_memory c n hc := by cases hc
  fwd_chained c hc := absurd rfl hc
  sharer_chained c hc := by cases hc
  inv_token c hc := absurd rfl hc
  share _ c := by simp [Scene.create, Scene.standings, Role.standing]
  shareM e := by cases e
  own c := by simp [Scene.create, Scene.standings, Role.standing]
  owned e := by simp at e
  unowned _ _ := rfl
  unshared _ := rfl
  unique c c' hc := by cases hc.1
  tokenAt c hc := by cases hc.1
  source x n := by simp [Scene.create, Scene.standings, Role.standing]
  kind x n k hx := by cases hx
  fwdGetS x n hx := by cases hx
  fwdGetS_unique x n x' n' hx := by cases hx
  waiting e := by cases e
  toDirAt e := absurd rfl e
  exclusive c hc := absurd rfl hc
  toHead c h hc := by rcases hc with hc | hc <;> cases hc
  pending := ⟨∅, fun c => by simp [Scene.create, Scene.standings, Role.standing], fun h o ho => by cases ho⟩
  mem c := by simp [Scene.create, Scene.standings, Role.standing]
  mem_source c hc := by cases hc
  memOk := rfl

end Line

/-! ## The system -/

/-- The value stored last at line `a`, which held `v` before the callbacks of `log`. -/
def lastStore (a : D × L) : V → Log C D L V → V
  | v, [] => v
  | v, (_, _, .load _) :: log => lastStore a v log
  | v, (b, _, .store w) :: log => lastStore a (if b = a then w else v) log

omit [DecidableEq C] [Inhabited V] in
theorem lastStore_append (a : D × L) : ∀ (v : V) (l₁ l₂ : Log C D L V),
    lastStore a v (l₁ ++ l₂) = lastStore a (lastStore a v l₁) l₂
  | _, [], _ => rfl
  | v, (_, _, .load _) :: l₁, l₂ => lastStore_append a v l₁ l₂
  | _, (_, _, .store _) :: l₁, l₂ => lastStore_append a _ l₁ l₂

def LoadsLast (a : D × L) : V → Log C D L V → Prop
  | _, [] => True
  | v, (b, _, .load w) :: log => (b = a → w = v) ∧ LoadsLast a v log
  | v, (b, _, .store w) :: log => LoadsLast a (if b = a then w else v) log

variable {a : D × L} {l₁ l₂ : Log C D L V} {v : V}

omit [DecidableEq C] [Inhabited V] in
theorem LoadsLast.append (h₁ : LoadsLast a v l₁) (h₂ : LoadsLast a (lastStore a v l₁) l₂) :
    LoadsLast a v (l₁ ++ l₂) := by
  induction l₁ generalizing v with
  | nil => exact h₂
  | cons x l₁ ih =>
    obtain ⟨b, c, callback⟩ := x
    cases callback with
    | load w => exact ⟨h₁.1, ih h₁.2 h₂⟩
    | store w => exact ih (v := if b = a then w else v) h₁ h₂

omit [DecidableEq C] [Inhabited V] in
theorem LoadsLast.load {w : V} {c : C} (h : LoadsLast a v (l₁ ++ (a, c, .load w) :: l₂)) : w = lastStore a v l₁ := by
  induction l₁ generalizing v with
  | nil => exact h.1 rfl
  | cons x l₁ ih =>
    obtain ⟨b, y, callback⟩ := x
    cases callback with
    | load u => exact ih h.2
    | store u => exact ih (v := if b = a then u else v) h

namespace System

def Present (g : System C D L V) (a : D × L) (v : V) : Prop := ∃ k, Holds (line a g) k ∧ k.cur = v

def Race (g : System C D L V) : Event C D L V → Prop
  | .request c d => ∃ l rest, g.request c d = (l, .putS) :: rest ∧ PutSRace (g.dir (d, l)) c
  | _ => False

variable {g g' : System C D L V} {log : Log C D L V} {e : Event C D L V} {cur : D × L → V}

omit [DecidableEq C] [Inhabited V] in
theorem race_iff {a : D × L} (h : g.target e = some a) : g.Race e ↔ (line a g).Race (g.lineEvent e) := by
  cases e with
  | request c d =>
    cases hq : g.request c d with
    | nil => simp [target, hq] at h
    | cons p rest =>
      obtain ⟨l, m⟩ := p
      obtain rfl : (d, l) = a := by simpa [target, hq] using h
      simp [Race, Line.Race, lineEvent, line, hq]
  | memory d i =>
    simp only [Race, lineEvent, false_iff]
    split <;> exact id
  | _ => exact Iff.rfl

omit [DecidableEq C] [DecidableEq D] [DecidableEq L] [Inhabited V] in
theorem not_race_of_idle (h : g.target e = none) : ¬ g.Race e := by
  cases e with
  | request c d =>
    rintro ⟨l, rest, hq, -⟩
    simp [target, hq] at h
  | _ => exact id

omit [Inhabited V] in
theorem present_create (mem : D × L → V) (a : D × L) : (create mem : System C D L V).Present a (mem a) :=
  ⟨Scene.create (mem a), ⟨fun _ => ⟨rfl, rfl, rfl, rfl, fun _ => rfl⟩, fun _ => rfl, rfl, rfl, fun _ => rfl,
    Coherent.create (mem a)⟩, rfl⟩

omit [DecidableEq C] [DecidableEq D] [DecidableEq L] [Inhabited V] in
theorem log_eq {p : C × Callback V} (h : log.map (·.2) = [p]) (hlog : ∀ x ∈ log, x.1 = a) : log = [(a, p)] := by
  obtain ⟨x, rfl, rfl⟩ := List.map_eq_singleton_iff.1 h
  rw [← hlog x (by simp)]

/-- **A step keeps every line coherent**, and its callback delivers or leaves the line's value. -/
theorem step_present (h : ∀ a, g.Present a (cur a)) (hs : g.step e = .ok (g', log)) :
    ∀ a, g'.Present a (lastStore a (cur a) log) ∧ LoadsLast a (cur a) log := by
  intro a
  cases ht : g.target e with
  | none =>
    rw [step_idle ht] at hs
    cases hs
    exact ⟨h a, trivial⟩
  | some b =>
    obtain ⟨hline, hlocal⟩ := step_line ht
    obtain ⟨hother, hlog⟩ := hlocal _ hs
    rw [hs] at hline
    obtain ⟨k, hk, hkc⟩ := h b
    have hrace : ¬ (line b g).Race (g.lineEvent e) := by
      intro hr
      obtain ⟨f, hf⟩ := Line.step_fails hr
      rw [hline] at hf
      cases hf
    obtain ⟨s, log', k', hstep, hk', hexp⟩ := Line.step_lands hk hrace
    rw [hline] at hstep
    obtain ⟨rfl, rfl⟩ : line b g' = s ∧ log.map (·.2) = log' := by simpa [Except.map, lineOutcome] using hstep
    have hkeep : a ≠ b → g'.Present a (cur a) := by
      intro hab
      obtain ⟨k₂, hk₂, hc₂⟩ := h a
      exact ⟨k₂, (hother a hab).symm ▸ hk₂, hc₂⟩
    have hsame : k'.cur = k.cur → g'.Present a (cur a) := by
      intro hcur
      by_cases hab : a = b
      · exact ⟨k', hab ▸ hk', by rw [hab, hcur, hkc]⟩
      · exact hkeep hab
    rcases hexp with ⟨hnil, hcur⟩ | ⟨⟨c, hload⟩, hcur⟩ | ⟨c, hstore⟩
    · obtain rfl := List.map_eq_nil_iff.1 hnil
      exact ⟨hsame hcur, trivial⟩
    · obtain rfl := log_eq hload hlog
      exact ⟨hsame hcur, fun hba => by rw [← hba, hkc], trivial⟩
    · obtain rfl := log_eq hstore hlog
      refine ⟨?_, trivial⟩
      by_cases hab : a = b
      · exact ⟨k', hab ▸ hk', by simp [hab, lastStore]⟩
      · rw [lastStore, if_neg (Ne.symm hab)]
        exact hkeep hab

/-- **A step fails where the directory takes a `PutS` for the last one, and only there.** -/
theorem step_fails_iff (h : ∀ a, g.Present a (cur a)) : (∃ f, g.step e = .error f) ↔ g.Race e := by
  cases ht : g.target e with
  | none =>
    rw [step_idle ht]
    simpa using not_race_of_idle ht
  | some b =>
    rw [race_iff ht]
    obtain ⟨hline, -⟩ := step_line ht
    obtain ⟨k, hk, -⟩ := h b
    constructor
    · rintro ⟨f, hf⟩
      rw [hf] at hline
      by_contra hrace
      obtain ⟨s, log', k', hstep, -⟩ := Line.step_lands hk hrace
      rw [hline] at hstep
      cases hstep
    · intro hrace
      obtain ⟨f, hf⟩ := Line.step_fails hrace
      rw [hf] at hline
      cases hg : g.step e with
      | error f => exact ⟨f, rfl⟩
      | ok r =>
        rw [hg] at hline
        cases hline

/-! ## Runs -/

variable {es : List (Event C D L V)} {r : Role C V}

theorem run_cons_ok {r : System C D L V × Log C D L V} (h : g.run (e :: es) = .ok r) :
    ∃ g₁ log₁ log₂, g.step e = .ok (g₁, log₁) ∧ g₁.run es = .ok (r.1, log₂) ∧ r.2 = log₁ ++ log₂ := by
  obtain ⟨⟨g₁, log₁⟩, h₁, h⟩ := Run.bind_eq_ok.1 h
  obtain ⟨⟨g₂, log₂⟩, h₂, h⟩ := Run.bind_eq_ok.1 h
  cases h
  exact ⟨g₁, log₁, log₂, h₁, h₂, rfl⟩

theorem run_present (h : ∀ a, g.Present a (cur a)) (hr : g.run es = .ok (g', log)) :
    ∀ a, g'.Present a (lastStore a (cur a) log) ∧ LoadsLast a (cur a) log := by
  induction es generalizing g cur log with
  | nil =>
    cases hr
    exact fun a => ⟨h a, trivial⟩
  | cons e es ih =>
    obtain ⟨g₁, log₁, log₂, h₁, h₂, rfl⟩ := run_cons_ok hr
    have hstep := step_present h h₁
    have hrest := ih (fun a => (hstep a).1) h₂
    intro a
    rw [lastStore_append]
    exact ⟨(hrest a).1, (hstep a).2.append (hrest a).2⟩

omit [DecidableEq C] [Inhabited V] in
theorem owner_of_M {v : V} (h : (r.cacheLine v).getState = .M) : ∃ fwd, r = .owner fwd := by
  cases r with
  | owner fwd => exact ⟨fwd, rfl⟩
  | waitM w _ _ => cases w <;> cases h
  | memM w _ => cases w <;> cases h
  | dirM w _ _ _ => cases w <;> cases h
  | collect sm _ _ => cases sm <;> cases h
  | _ => cases h

def Hits (s : CacheState) : Prop := s = .M ∨ s = .S ∨ s = .SM_AD ∨ s = .SM_A

omit [DecidableEq C] [Inhabited V] in
theorem not_hits_of_stale (hr : r.Stale) (v : V) : ¬ Hits (r.cacheLine v).getState := by
  cases r with
  | waitM w _ _ =>
    cases w with
    | inl w => simp [Hits, Role.cacheLine, busy, CacheLine.getState]
    | inr y => cases hr
  | idle | askS _ | memS _ | fwdS _ _ | putS _ _ _ | putSAcked _ _ | askM _ | putMDone _ | gone _ _ | goneAcked _ =>
    simp [Hits, Role.cacheLine, busy, resting, CacheLine.getState]
  | _ => cases hr

omit [DecidableEq C] [Inhabited V] in
theorem standing_of_hits {v : V} (h : Hits (r.cacheLine v).getState) :
    r.standing.sharer = true ∨ r.standing.inv ≠ none ∨ r.standing.chained = true ∧ r.standing.source = none := by
  cases r with
  | shared inv | upgrade inv => cases inv <;> simp [Role.standing]
  | waitM w _ _ | memM w _ | dirM w _ _ _ =>
    cases w <;> simp_all [Hits, Role.cacheLine, busy, CacheLine.getState, Role.standing]
  | _ => simp_all [Hits, Role.cacheLine, busy, resting, CacheLine.getState, Role.standing]

/-- **MSI coherence**: in every run of the system that has not failed, while a cache has a line in `M` no other has it
in a state in which loads hit, and every load delivers what was stored last, or else what memory held at the start. -/
theorem msi_coherent {mem : D × L → V} {es : List (Event C D L V)} (hr : (create mem).run es = .ok (g, log)) :
    (∀ a c c', (g.cache c a).getState = .M → c' ≠ c → ¬ Hits (g.cache c' a).getState) ∧
      ∀ a pre c v post, log = pre ++ (a, c, .load v) :: post → v = lastStore a (mem a) pre := by
  have hpres := run_present (present_create mem) hr
  constructor
  · intro a c c' hM hne
    obtain ⟨⟨k, hk, -⟩, -⟩ := hpres a
    have hc := (hk.fits c).cache
    simp only [line] at hc
    rw [hc] at hM
    obtain ⟨fwd, hrole⟩ := owner_of_M hM
    have htok : k.standings.token c := by
      constructor <;> simp [Scene.standings, hrole, Role.standing]
    have hstale := hk.stale htok (by simp [Scene.standings, hrole, Role.standing]) hne
    have hc' := (hk.fits c').cache
    simp only [line] at hc'
    rw [hc']
    exact not_hits_of_stale hstale k.cur
  · rintro a pre c v post rfl
    exact (hpres a).2.load

/-- **The directory is conservative**: in every run that has not failed, a cache in which loads hit is one of the
directory's sharers, unless that is in `M`, `M_m` or `S_D`; and memory has what was stored last while the directory is in
`I` or `S`, or memory reads for it. -/
theorem directory_conservative {mem : D × L → V} (hr : (create mem).run es = .ok (g, log)) (a : D × L) :
    (∀ c, Hits (g.cache c a).getState → c ∈ (g.dir a).sharers ∨ (g.dir a).dirState ∈ [.M, .M_m, .S_D]) ∧
      ((g.dir a).dirState ∈ [.I, .S, .S_m, .M_m] → g.mem a = lastStore a (mem a) log) := by
  obtain ⟨⟨k, hk, hcur⟩, -⟩ := run_present (present_create mem) hr a
  constructor
  · intro c hc
    by_contra hno
    rw [not_or, List.mem_cons, List.mem_cons, List.mem_singleton] at hno
    -- outside these three states nobody holds the token, and so nobody is to invalidate
    have hnone := hk.coherent.noToken (by tauto) (by tauto) (by tauto)
    have hcache : g.cache c a = (k.role c).cacheLine k.cur := (hk.fits c).cache
    rw [hcache] at hc
    rcases standing_of_hits hc with hs | hi | ht
    · exact hno.1 ((hk.coherent.share (by tauto) c).2 hs)
    · exact hi (hk.coherent.quiet_of_noToken hnone c).1
    · exact hnone c ht
  · intro hd
    simp only [List.mem_cons, List.not_mem_nil, or_false] at hd
    rw [← hcur]
    refine hk.mem ?_
    simp only [MemCurrent]
    tauto

theorem run_fails_iff (h : ∀ a, g.Present a (cur a)) : (∃ f, g.run es = .error f) ↔
      ∃ pre e post g' log, es = pre ++ e :: post ∧ g.run pre = .ok (g', log) ∧ g'.Race e := by
  induction es generalizing g cur with
  | nil =>
    constructor
    · rintro ⟨f, hf⟩
      cases hf
    · rintro ⟨pre, e, post, g', log, hes, -⟩
      cases pre <;> cases hes
  | cons e es ih =>
    have hfails := step_fails_iff (e := e) h
    cases hs : g.step e with
    | error f =>
      have hrace := hfails.1 ⟨f, hs⟩
      refine ⟨fun _ => ⟨[], e, es, g, [], rfl, rfl, hrace⟩, fun _ => ⟨f, ?_⟩⟩
      simp only [run, hs]
      rfl
    | ok r =>
      obtain ⟨g₁, log₁⟩ := r
      have hrace : ¬ g.Race e := by
        intro hr
        obtain ⟨f, hf⟩ := hfails.2 hr
        rw [hs] at hf
        cases hf
      have hrest := ih fun a => (step_present h hs a).1
      have hrun : (∃ f, g.run (e :: es) = .error f) ↔ ∃ f, g₁.run es = .error f := by
        simp only [run, hs, Run.ok_bind]
        cases hr₁ : g₁.run es with
        | error f => exact ⟨fun _ => ⟨f, rfl⟩, fun _ => ⟨f, rfl⟩⟩
        | ok r => exact ⟨fun ⟨_, hf⟩ => (by cases hf), fun ⟨_, hf⟩ => (by cases hf)⟩
      rw [hrun, hrest]
      constructor
      · rintro ⟨pre, e', post, g', log, rfl, hpre, hr⟩
        refine ⟨e :: pre, e', post, g', log₁ ++ log, rfl, ?_, hr⟩
        simp only [run, hs, Run.ok_bind, hpre]
        rfl
      · rintro ⟨pre, e', post, g', log, hes, hpre, hr⟩
        cases pre with
        | nil =>
          obtain ⟨rfl, rfl⟩ : e = e' ∧ es = post := by simpa using hes
          cases hpre
          exact absurd hr hrace
        | cons e₀ pre =>
          obtain ⟨rfl, rfl⟩ : e = e₀ ∧ es = pre ++ e' :: post := by simpa using hes
          obtain ⟨g₂, log₂, log₃, h₁, h₂, -⟩ := run_cons_ok hpre
          rw [hs] at h₁
          cases h₁
          exact ⟨pre, e', post, g', log₃, rfl, h₂, hr⟩

/-- **A run fails exactly where the directory takes a `PutS` for the last one**: every assertion holds and every pair of
state and event has a transition, but where a `PutS` finds one sharer left and either the sender is not that sharer or
the directory is in `SS_m`. -/
theorem msi_fails_iff (mem : D × L → V) (es : List (Event C D L V)) :
    (∃ f, (create mem).run es = .error f) ↔
      ∃ pre e post g log, es = pre ++ e :: post ∧ (create mem).run pre = .ok (g, log) ∧ g.Race e :=
  run_fails_iff (present_create mem)

/-! ## Two caches -/

def first : Fin 2 := .mk 0 Nat.zero_lt_two

def second : Fin 2 := .mk 1 Nat.one_lt_two

def readRun (c : Fin 2) : List (Event (Fin 2) Unit Unit Nat) :=
  [.load c ((), ()), .request c (), .memory () 0, .memQueue (), .responseD () c id]

theorem directory_conservative_read : ∃ g log, run (create fun _ => 3) (readRun first) = .ok (g, log) ∧
    g.mem ((), ()) = lastStore ((), ()) 3 log :=
  ⟨_, _, rfl, (directory_conservative (rfl : run (create fun _ => 3) (readRun first) = .ok (_, _)) ((), ())).2
    (.tail _ (.head _))⟩

/-- Both caches read the line; the first gives it up, and its `PutS` is slow; the second stores, and loads. -/
def storedRun : List (Event (Fin 2) Unit Unit Nat) :=
  readRun first ++ readRun second ++
    [.replacement first ((), ()), .store second ((), ()) fun _ => 7, .request second (), .forward () first,
      .memory () 0, .memQueue (), .responseC first second fun _ => 7, .responseD () second fun _ => 7,
      .load second ((), ())]

theorem msi_coherent_two_caches :
    ∃ g log, (create (C := Fin 2) (D := Unit) (L := Unit) fun _ => (3 : Nat)).run storedRun = .ok (g, log) ∧
      (g.cache second ((), ())).getState = .M ∧ ¬ Hits (g.cache first ((), ())).getState ∧
      log = [(((), ()), first, .load 3), (((), ()), second, .load 3), (((), ()), second, .store 7),
        (((), ()), second, .load 7)] := by
  have hits : ∀ g log, (create (C := Fin 2) (D := Unit) (L := Unit) fun _ => (3 : Nat)).run storedRun = .ok (g, log) →
      (g.cache second ((), ())).getState = .M → ¬ Hits (g.cache first ((), ())).getState :=
    fun g log hrun hM => (msi_coherent hrun).1 ((), ()) second first hM (by decide)
  exact ⟨_, _, rfl, rfl, hits _ _ rfl rfl, rfl⟩

/-- The second cache gives the line back, and reads it again. -/
def slowPutS : List (Event (Fin 2) Unit Unit Nat) :=
  storedRun ++
    [.replacement second ((), ()), .request second (), .forward () second, .memory () 0, .memQueue (),
      .load second ((), ()), .request second (), .request first ()]

/-- The first cache stores, the second reads, and both give the line up before memory has it. -/
def earlyPutS : List (Event (Fin 2) Unit Unit Nat) :=
  [.store first ((), ()) fun _ => 7, .request first (), .memory () 0, .memQueue (), .responseD () first fun _ => 7,
    .load second ((), ()), .request second (), .forward () first, .responseC first second id, .toDir first (),
    .replacement first ((), ()), .request first (), .replacement second ((), ()), .request second ()]

/-- **Two caches make the directory fail**: at an assertion, and at a pair that has no transition. -/
theorem msi_putS_fails :
    (create (C := Fin 2) (D := Unit) (L := Unit) fun _ => (3 : Nat)).run slowPutS = .error .assertFailed ∧
      (create (C := Fin 2) (D := Unit) (L := Unit) fun _ => (3 : Nat)).run earlyPutS =
        .error (.panic "Invalid transition\n") :=
  ⟨rfl, rfl⟩

end System

end Gem5.Msi
