import Gem5Cxl.MsiCacheStep
/-!
# MsiDirStep — what the directory and memory do with a line that is as a scene has it

The one message the directory can fail at is a `PutS`: its handling of it takes the requestor for the last sharer where
the directory has one sharer left.
-/
namespace Gem5.Msi

open Function (update update_of_ne update_self)
open TaggedFifo

variable {C V : Type} [DecidableEq C] {s : Line C V} {k : Scene C V} {c : C}

/-! ## Transitions of the directory -/

variable {x : DirContext C V} {r : C} {d : DirEntry C} {mq : MemQueue C} {role : C → Role C V} {m : RequestMsg V}
  {cur : V}

omit [DecidableEq C] in
theorem dirSetState_ok {next : DirState} (hM : next = .M → x.owner.card = 1 ∧ x.sharers.card = 0)
    (hI : next = .I → x.owner.card = 0 ∧ x.sharers.card = 0) :
    dirSetState next x = .ok { x with dirState := next } := by
  have h₁ : decide (next = .M → x.owner.card = 1) = true := decide_eq_true fun e => (hM e).1
  have h₂ : decide (next = .M → x.sharers.card = 0) = true := decide_eq_true fun e => (hM e).2
  have h₃ : decide (next = .I → x.owner.card = 0) = true := decide_eq_true fun e => (hI e).1
  have h₄ : decide (next = .I → x.sharers.card = 0) = true := decide_eq_true fun e => (hI e).2
  simp only [dirSetState, h₁, h₂, h₃, h₄]
  rfl

theorem dirTrigger_eq {e : DirEntry C} {m : DirIn C V} {sharers owner : Finset C} {out : List (DirOut C V)}
    {popped : Bool} (event : DirEvent) (actions : List DirAction) (next : DirState)
    (ht : dirTransition e.dirState event = some (actions, next))
    (hx : Slicc.runActions dirAct actions { e with inMsg := m } =
      .ok { dirState := e.dirState, sharers, owner, inMsg := m, out, popped })
    (hM : next = .M → owner.card = 1 ∧ sharers.card = 0) (hI : next = .I → owner.card = 0 ∧ sharers.card = 0) :
    dirTrigger e m event = .ok { dirState := next, sharers, owner, inMsg := m, out, popped } := by
  simp only [dirTrigger, Slicc.doTransition, ht, hx, Run.ok_bind]
  exact dirSetState_ok hM hI

/-! ## Memory -/

variable [Inhabited V]

omit [Inhabited V] in
theorem Holds.memory_read (h : Holds s k) (hm : k.mq = .read r ∨ k.mq = .data r) :
    s.dir.dirState = .S_m ∨ s.dir.dirState = .M_m := by
  have hok := h.coherent.memOk
  cases hs : s.dir.dirState <;> simp only [hs, MemOk] at hok <;> rcases hm with hm | hm <;> simp_all

theorem memory_lands (h : Holds s k) (i : Nat) : Lands k.cur (s.step (.memory i)) := by
  simp only [Line.step]
  cases hi : s.memReq[i]? with
  | none => exact .idle h
  | some m =>
    have hreq := h.memReq
    rw [hreq] at hi
    cases hm : k.mq with
    | read r =>
      have hcur : s.mem = k.cur := by
        refine h.mem ?_
        rcases h.memory_read (.inl hm) with hs | hs <;> simp [MemCurrent, hs]
      simp only [hm, MemQueue.requests] at hi hreq
      obtain ⟨rfl, rfl⟩ : i = 0 ∧ .read r = m := by simpa [List.getElem?_singleton] using hi
      refine ⟨_, _, { k with mq := .data r }, rfl, ?_, .inl ⟨rfl, rfl⟩⟩
      refine ⟨fun y => { h.fits y with }, h.toDir, ?_, ?_, ?_, h.coherent.serve (.inl ⟨r, hm, rfl⟩)⟩
      · simp [Line.serve, hreq, MemQueue.requests]
      · have := h.memResp
        simp only [hm, MemQueue.responses] at this
        simp [Line.serve, this, hcur, MemQueue.responses]
      · exact fun _ => hcur
    | write =>
      simp only [hm, MemQueue.requests] at hi hreq
      obtain ⟨rfl, rfl⟩ : i = 0 ∧ .write k.cur = m := by simpa [List.getElem?_singleton] using hi
      refine ⟨_, _, { k with mq := .ack }, rfl, ?_, .inl ⟨rfl, rfl⟩⟩
      refine ⟨fun y => { h.fits y with }, h.toDir, ?_, ?_, fun _ => rfl, h.coherent.serve (.inr ⟨hm, rfl⟩)⟩
      · simp [Line.serve, hreq, MemQueue.requests]
      · have := h.memResp
        simp only [hm, MemQueue.responses] at this
        simp [Line.serve, this, MemQueue.responses]
    | idle | data r | ack => simp [hm, MemQueue.requests] at hi

theorem toDir_lands (h : Holds s k) (c : C) : Lands k.cur (s.step (.toDir c)) := by
  by_cases hc : k.toDir = some c
  · have hs := h.coherent.toDirAt (by rw [hc]; simp)
    have hq : s.toDir c = [k.cur] := (h.toDir c).trans (if_pos hc)
    have hx : dirResponseIn s.dir k.cur = .ok
        { s.dir with
          dirState := .SS_m, inMsg := .response k.cur, out := [.memory (.write k.cur)], popped := true } :=
      dirTrigger_eq .data [.sendRespDataToMem, .popResponseQueue] .SS_m (by rw [hs]; rfl) rfl (by simp) (by simp)
    have hmq := (h.coherent.idle (.inr (.inr (.inr hs)))).1
    simp only [Line.step, hq, hx, Run.ok_bind, Run.pure_eq_ok]
    refine ⟨_, _, { k with toDir := none, mq := .write }, rfl, ?_, .inl ⟨rfl, rfl⟩⟩
    refine ⟨fun y => { h.fits y with }, fun y => ?_, ?_, ?_, ?_, h.coherent.dataArrives (by rw [hc]; simp)⟩
    · by_cases hy : y = c
      · subst hy
        refine (update_self ..).trans ?_
        rw [hq]
        rfl
      · refine (update_of_ne hy ..).trans ?_
        rw [h.toDir, hc, if_neg (by simpa using Ne.symm hy)]
        rfl
    · have := h.memReq
      simp only [hmq, MemQueue.requests] at this
      exact congrArg (· ++ [.write k.cur]) this
    · have := h.memResp
      simp only [hmq, MemQueue.responses] at this
      exact this
    · intro hd
      simp [MemCurrent, Line.afterDir, Line.dirSend] at hd
  · have hq : s.toDir c = [] := (h.toDir c).trans (if_neg hc)
    simp only [Line.step, hq]
    exact .idle h

/-- **Memory's data goes on to the cache that asked**, whose role becomes `r'`. -/
theorem Lands.sendData (h : Holds s k) {acks : Int} {r₀ : Role C V} (hm : k.mq = .data r) (hr : k.role r = r₀)
    (r' : Role C V)
    (hx : memQueueIn s.dir (.data r k.cur) = .ok
      { d with inMsg := .memory (.data r k.cur), out := [.response r (.data k.cur acks)], popped := true })
    (hl : r'.cacheLine k.cur = r₀.cacheLine k.cur) (hq : r'.request k.cur = r₀.request k.cur)
    (hfw : r'.forward = r₀.forward) (hd : r₀.fromDir k.cur = []) (hd' : r'.fromDir k.cur = [.data k.cur acks])
    (hfc : ∀ z, r'.fromCache k.cur z = r₀.fromCache k.cur z) (hmem : MemCurrent (C := C) d.dirState .idle → s.mem = k.cur)
    (hco : Coherent d (k.setRole r r').standings k.toDir .idle) : Lands k.cur (s.step .memQueue) := by
  subst hr
  have hreq := h.memReq
  have hresp := h.memResp
  simp only [hm, MemQueue.requests, MemQueue.responses] at hreq hresp
  simp only [Line.step, hresp, hx, Run.ok_bind, Run.pure_eq_ok]
  refine ⟨_, _, { k.setRole r r' with mq := .idle }, rfl, ⟨fun y => ?_, h.toDir, hreq, ?_, hmem, hco⟩, .inl ⟨rfl, rfl⟩⟩
  · have hfy := h.fits y
    by_cases hy : y = r
    · subst hy
      simp only [Scene.setRole_role_self, Scene.setRole_cur]
      refine ⟨hfy.cache.trans hl.symm, hfy.request.trans hq.symm, hfy.forward.trans hfw.symm, ?_, fun z => ?_⟩
      · refine (if_pos ⟨rfl, rfl⟩).trans ?_
        rw [hd']
        exact congrArg (· ++ _) (hfy.fromDir.trans hd)
      · rw [hfc]
        exact hfy.fromCache z
    · simp only [Scene.setRole_role_of_ne k hy, Scene.setRole_cur]
      exact { hfy with fromDir := (if_neg fun e => hy e.2).trans hfy.fromDir }
  · simp [Line.popMemQueue, Line.afterDir, Line.dirSend, hresp, pop, MemQueue.responses]

omit [DecidableEq C] [Inhabited V] in
theorem Role.mem_cases {r : Role C V} (h : r.standing.mem = true) : (∃ w, r = .memS w) ∨ ∃ w got, r = .memM w got := by
  cases r with
  | memS w => exact .inl ⟨w, rfl⟩
  | memM w got => exact .inr ⟨w, got, rfl⟩
  | waitM w x fwd => cases w <;> cases h
  | _ => cases h

section

variable (h : Holds s k) (hm : k.mq = .data r)
include h hm

omit [Inhabited V] in
theorem Holds.role_of_data : (s.dir.dirState = .S_m → ∃ w, k.role r = .memS w) ∧
    (s.dir.dirState = .M_m → ∃ w got, k.role r = .memM w got) := by
  have hok := h.coherent.memOk
  constructor
  all_goals
    intro hs
    simp only [hs, MemOk] at hok
    obtain ⟨r', hr', hch⟩ := hok
    obtain rfl : r = r' := by simpa [hm] using hr'
    obtain ⟨w, hr⟩ | ⟨w, got, hr⟩ := Role.mem_cases ((h.coherent.mem r).2 (.inr hm))
  · exact ⟨w, hr⟩
  · simp [Scene.standings, hr, Role.standing] at hch
  · simp [Scene.standings, hr, Role.standing] at hch
  · exact ⟨w, got, hr⟩

theorem memQueue_read (hs : s.dir.dirState = .S_m) :
    Lands k.cur (s.step .memQueue) := by
  obtain ⟨w, hr⟩ := (h.role_of_data hm).1 hs
  have how : r ∉ s.dir.owner := by simp [h.coherent.unowned (by simp [hs]) (by simp [hs])]
  refine .sendData h hm hr (.dataS w .directory none) (d := { s.dir with dirState := .S }) ?_ rfl rfl rfl rfl rfl
    (fun _ => rfl) (fun _ => h.mem (by simp [MemCurrent, hs])) ?_
  · refine dirTrigger_eq .memData [.sendDataToReq, .popMemQueue] .S (by rw [hs]; rfl) ?_ (by simp) (by simp)
    simp [Slicc.runActions, dirAct, how, DirContext.send]
  · rw [k.standings_mem (by rw [hr]; rfl)]
    exact h.coherent.readDone hs hm

theorem memQueue_write (hs : s.dir.dirState = .M_m) :
    Lands k.cur (s.step .memQueue) := by
  obtain ⟨w, got, hr⟩ := (h.role_of_data hm).2 hs
  have hown : r ∈ s.dir.owner := (h.coherent.own r).2 (by simp [Scene.standings, hr, Role.standing])
  obtain ⟨o, ho⟩ := h.coherent.owned (.inr hs)
  refine .sendData h hm hr (.dirM w s.dir.sharers.card got none) (d := { s.dir with dirState := .M, sharers := ∅ }) ?_
    ((Role.cacheLine_dirM ..).trans (Role.cacheLine_memM ..).symm) rfl rfl rfl rfl (fun _ => rfl)
    (fun e => by simp [MemCurrent] at e) ?_
  · refine dirTrigger_eq .memData [.sendDataToReq, .clearSharers, .popMemQueue] .M (by rw [hs]; rfl) ?_
      (fun _ => by simp [ho]) (by simp)
    simp [Slicc.runActions, dirAct, hown, DirContext.send]
  · rw [k.standings_mem_head (by rw [hr]; rfl)]
    exact h.coherent.writeDone hs hm (by simp [Scene.standings, hr, Role.standing])

end

theorem memQueue_ack (h : Holds s k) (hm : k.mq = .ack) : Lands k.cur (s.step .memQueue) := by
  have hresp := h.memResp
  have hreq := h.memReq
  simp only [hm, MemQueue.responses, MemQueue.requests] at hresp hreq
  have hok := h.coherent.memOk
  have hcur : s.mem = k.cur := h.mem (by simp [MemCurrent, hm])
  obtain ⟨next, hs, hnext⟩ : ∃ next, (s.dir.dirState = .SS_m ∧ next = .S ∨ s.dir.dirState = .MI_m ∧ next = .I) ∧
      dirTransition s.dir.dirState .memAck = some ([.popMemQueue], next) := by
    cases hs : s.dir.dirState with
    | SS_m => exact ⟨.S, .inl ⟨rfl, rfl⟩, rfl⟩
    | MI_m => exact ⟨.I, .inr ⟨rfl, rfl⟩, rfl⟩
    | _ => simp [hs, MemOk, hm] at hok
  have hx : memQueueIn s.dir (.ack : MemoryResp C V) = .ok
      { s.dir with dirState := next, inMsg := .memory .ack, popped := true } := by
    refine dirTrigger_eq .memAck [.popMemQueue] next hnext rfl (fun e => ?_) (fun e => ?_)
    · rcases hs with ⟨-, rfl⟩ | ⟨-, rfl⟩ <;> cases e
    · rcases hs with ⟨-, rfl⟩ | ⟨hs, -⟩
      · cases e
      · simp [h.coherent.unowned (by simp [hs]) (by simp [hs]), h.coherent.unshared (.inr (.inr hs))]
  simp only [Line.step, hresp, hx, Run.ok_bind, Run.pure_eq_ok]
  refine ⟨_, _, { k with mq := .idle }, rfl, ?_, .inl ⟨rfl, rfl⟩⟩
  refine ⟨fun y => { h.fits y with }, h.toDir, hreq, ?_, fun _ => hcur, h.coherent.writeAcked hs hm⟩
  simp [Line.popMemQueue, Line.afterDir, hresp, pop, MemQueue.responses]

theorem memQueue_lands (h : Holds s k) : Lands k.cur (s.step .memQueue) := by
  cases hm : k.mq with
  | data r =>
    rcases h.memory_read (.inr hm) with hs | hs
    · exact memQueue_read h hm hs
    · exact memQueue_write h hm hs
  | ack => exact memQueue_ack h hm
  | idle | read r | write =>
    have hresp := h.memResp
    simp only [hm, MemQueue.responses] at hresp
    simp only [Line.step, hresp]
    exact .idle h

/-! ## Requests -/

/-- What the directory's answer to a request of cache `c` leaves: its entry, what it forwards to each cache and what it
asks of memory. -/
def Line.answered (s : Line C V) (c : C) (d : DirEntry C) (more : C → List (ForwardMsg C)) (mem : List (MemoryReq C V)) :
    Line C V :=
  { s with
    dir := d
    request := Function.update s.request c []
    forward := fun y => s.forward y ++ more y
    memReq := s.memReq ++ mem }

/-- The role has `more` to come from the directory, and differs else at most in its request. -/
structure Role.Grown (cur : V) (r r' : Role C V) (more : List (ForwardMsg C)) : Prop where
  cacheLine : r'.cacheLine cur = r.cacheLine cur
  forward : r'.forward = r.forward ++ more
  fromDir : r'.fromDir cur = r.fromDir cur
  fromCache : ∀ z, r'.fromCache cur z = r.fromCache cur z

omit [Inhabited V] in
theorem Role.Grown.refl (cur : V) (r : Role C V) : Role.Grown cur r r [] :=
  ⟨rfl, (List.append_nil _).symm, rfl, fun _ => rfl⟩

omit [Inhabited V] in
theorem Holds.answered (h : Holds s k) {more : C → List (ForwardMsg C)} {mem : List (MemoryReq C V)}
    (hr : ∀ y, (k.role y).Grown k.cur (role y) (more y))
    (hq : ∀ y, y ≠ c → (role y).request k.cur = (k.role y).request k.cur) (hc : (role c).request k.cur = [])
    (hreq : mq.requests k.cur = k.mq.requests k.cur ++ mem) (hresp : mq.responses k.cur = k.mq.responses k.cur)
    (hmem : MemCurrent d.dirState mq → s.mem = k.cur) (hco : Coherent d { k with role }.standings k.toDir mq) :
    Holds (s.answered c d more mem) { k with role, mq } := by
  refine ⟨fun y => ?_, h.toDir, ?_, h.memResp.trans hresp.symm, hmem, hco⟩
  · have hfy := h.fits y
    have hg := hr y
    refine ⟨hfy.cache.trans hg.cacheLine.symm, ?_, ?_, hfy.fromDir.trans hg.fromDir.symm, fun z => ?_⟩
    · by_cases hy : y = c
      · subst hy
        exact (update_self ..).trans hc.symm
      · exact (update_of_ne hy ..).trans (hfy.request.trans (hq y hy).symm)
    · rw [hg.forward, ← hfy.forward]
      rfl
    · rw [hg.fromCache z]
      exact hfy.fromCache z
  · rw [hreq, ← h.memReq]
    rfl

def forwarded (fw : Option (Finset C × ForwardMsg C)) (y : C) : List (ForwardMsg C) :=
  match fw with
  | none => []
  | some (dest, m) => if y ∈ dest then [m] else []

omit [Inhabited V] in
theorem Line.answered_eq (hq : s.request c = [m]) (mem : Option (MemoryReq C V))
    (fw : Option (Finset C × ForwardMsg C))
    (ho : x.out = (mem.map DirOut.memory).toList ++ (fw.map fun p => DirOut.forward p.1 p.2).toList) :
    (s.popRequest c true).afterDir x = s.answered c x.toDirEntry (forwarded fw) mem.toList := by
  have hpop : pop true (s.request c) = [] := by rw [hq]; rfl
  rw [Line.afterDir, ho, Line.popRequest, hpop]
  rcases fw with _ | ⟨dest, m'⟩
  · cases mem <;> simp [Line.answered, Line.dirSend, forwarded]
  · have hf : (fun y => s.forward y ++ forwarded (some (dest, m')) y) =
        fun y => if y ∈ dest then s.forward y ++ [m'] else s.forward y := by
      funext y
      by_cases hy : y ∈ dest <;> simp [forwarded, hy]
    rw [Line.answered, hf]
    cases mem <;> simp [Line.dirSend]

theorem Lands.requestStalled (h : Holds s k) (hq : s.request c = [m]) {event : DirEvent}
    (he : requestEvent s.dir c m = .ok event)
    (ht : dirTransition s.dir.dirState event = some ([.stall], s.dir.dirState)) (hM : s.dir.dirState ≠ .M)
    (hI : s.dir.dirState ≠ .I) : Lands k.cur (s.step (.request c)) := by
  have hx : requestIn s.dir c m = .ok { s.dir with inMsg := .request c m } := by
    simp only [requestIn, he, Run.ok_bind]
    exact dirTrigger_eq event [.stall] s.dir.dirState ht rfl (fun e => absurd e hM) (fun e => absurd e hI)
  simp only [Line.step, hq, hx, Run.ok_bind, Run.pure_eq_ok]
  have hs : (s.popRequest c false).afterDir { s.dir with inMsg := DirIn.request c m } = s := by
    simp [Line.popRequest, Line.afterDir, pop]
  rw [hs]
  exact .idle h

theorem Lands.answered {m : RequestMsg V} (hq : s.request c = [m]) {event : DirEvent}
    (he : requestEvent s.dir c m = .ok event) {d : DirEntry C} (mem : Option (MemoryReq C V))
    (fw : Option (Finset C × ForwardMsg C))
    (ht : dirTrigger s.dir (.request c m) event = .ok
      { d with
        inMsg := .request c m
        out := (mem.map DirOut.memory).toList ++ (fw.map fun p => DirOut.forward p.1 p.2).toList, popped := true })
    (role : C → Role C V) (mq : MemQueue C)
    (h : Holds (s.answered c d (forwarded fw) mem.toList) { k with role, mq }) :
    Lands k.cur (s.step (.request c)) := by
  simp only [Line.step, hq, requestIn, he, ht, Run.ok_bind, Run.pure_eq_ok]
  rw [Line.answered_eq hq mem fw rfl]
  exact ⟨_, _, _, rfl, h, .inl ⟨rfl, rfl⟩⟩

/-! ### Reads and writes -/

def Role.addFwd (f : Kind × C) : Role C V → Role C V
  | waitM w x none => waitM w x (some f)
  | dirM w acks got none => dirM w acks got (some f)
  | cacheM w x none => cacheM w x (some f)
  | collect sm n none => collect sm n (some f)
  | owner none => owner (some f)
  | putM none => putM (some f)
  | r => r

def Role.addInv (x : C) : Role C V → Role C V
  | dataS w sender none => dataS w sender (some x)
  | shared none => shared (some x)
  | upgrade none => upgrade (some x)
  | putS w m none => putS w m (some x)
  | r => r

omit [Inhabited V] in
theorem Role.addFwd_spec {r : Role C V} (cur : V) (kind : Kind) (n : C) (hc : r.standing.chained = true)
    (hf : r.standing.fwd = none) (hm : r.standing.mem = false) :
    r.Grown cur (r.addFwd (kind, n)) [fwdMsg kind n] ∧ (r.addFwd (kind, n)).request cur = r.request cur ∧
      (r.addFwd (kind, n)).standing =
        { r.standing with fwd := some (kind, n), sharer := isGetS (some (kind, n)) } := by
  cases r with
  | waitM w x fwd =>
    cases w with
    | inl w =>
      obtain rfl : fwd = none := hf
      exact ⟨⟨rfl, rfl, rfl, fun _ => rfl⟩, rfl, rfl⟩
    | inr y =>
      obtain rfl : fwd = none := hf
      exact ⟨⟨rfl, rfl, rfl, fun _ => rfl⟩, rfl, rfl⟩
  | dirM w acks got fwd =>
    obtain rfl : fwd = none := hf
    exact ⟨⟨by cases w <;> rfl, rfl, rfl, fun _ => rfl⟩, rfl, rfl⟩
  | cacheM w x fwd | collect sm m fwd | owner fwd | putM fwd =>
    obtain rfl : fwd = none := hf
    exact ⟨⟨rfl, rfl, rfl, fun _ => rfl⟩, rfl, rfl⟩
  | memM w got => cases hm
  | putMFwd kind n => cases hf
  | _ => cases hc

omit [Inhabited V] in
theorem Role.addInv_spec {r : Role C V} (cur : V) (x : C) (hs : r.standing.sharer = true)
    (hc : r.standing.chained = false) (hsrc : r.standing.source = none) (hm : r.standing.mem = false) :
    r.Grown cur (r.addInv x) [.inv x] ∧ (r.addInv x).request cur = r.request cur ∧
      (r.addInv x).standing = { r.standing with sharer := false, inv := some x } := by
  cases r with
  | dataS w sender inv =>
    obtain rfl : inv = none := by simpa [Role.standing] using hs
    exact ⟨⟨rfl, rfl, by cases sender <;> rfl, fun _ => by cases sender <;> rfl⟩, rfl, rfl⟩
  | shared inv | upgrade inv | putS w m inv =>
    obtain rfl : inv = none := by simpa [Role.standing] using hs
    exact ⟨⟨rfl, rfl, rfl, fun _ => rfl⟩, rfl, rfl⟩
  | memS w => cases hm
  | fwdS w x => cases hsrc
  | waitM w x fwd => cases w <;> cases hc
  | memM w got | dirM w acks got fwd | cacheM w x fwd | collect sm m fwd | owner fwd | putM fwd => cases hc
  | _ => cases hs

omit [DecidableEq C] [Inhabited V] in
theorem Coherent.scene {t : Standings C} {toDir : Option C} (h : Coherent d t toDir mq)
    (hr : ∀ y, (role y).standing = t.at y) (hack : t.ack = k.ack) :
    Coherent d (Scene.standings { k with role }) toDir mq := by
  rw [k.standings_eq hr hack]
  exact h

omit [Inhabited V] in
theorem Holds.owner_role (h : Holds s k) {o : C} (hs : s.dir.dirState = .M) (ho : s.dir.owner = {o}) :
    (k.role o).standing.chained = true ∧ (k.role o).standing.fwd = none ∧ (k.role o).standing.mem = false := by
  obtain ⟨h₁, h₂⟩ := (h.coherent.own o).1 (by simp [ho])
  exact ⟨h₁, h₂, (h.coherent.idle (.inr (.inr (.inl hs)))).2 o⟩

/-- **A request that the owner is to answer**: the owner is told, and the requestor waits for it as `r`. -/
theorem Lands.toOwner (h : Holds s k) (hq : s.request c = [m]) {event : DirEvent}
    (he : requestEvent s.dir c m = .ok event) (hs : s.dir.dirState = .M) {o : C} (ho : s.dir.owner = {o})
    (hout : Coherent.Outside k.standings c) (kind : Kind) (r : Role C V)
    (hx : dirTrigger s.dir (.request c m) event = .ok
      { d with inMsg := .request c m, out := [.forward s.dir.owner (fwdMsg kind c)], popped := true })
    (hg : (k.role c).Grown k.cur r []) (hr : r.request k.cur = []) (hd : d.dirState = .S_D ∨ d.dirState = .M)
    {t : Standings C} (hco : Coherent d t k.toDir k.mq) (hack : t.ack = k.ack) (hc : r.standing = t.at c)
    (hto : { (k.role o).standing with fwd := some (kind, c), sharer := isGetS (some (kind, c)) } = t.at o)
    (hother : ∀ y, y ≠ c → y ≠ o → (k.role y).standing = t.at y) : Lands k.cur (s.step (.request c)) := by
  obtain ⟨hch, hfwd, hmem⟩ := h.owner_role hs ho
  have hoc : o ≠ c := hout.ne hch
  obtain ⟨hgo, hreq, hsto⟩ := Role.addFwd_spec k.cur kind c hch hfwd hmem
  refine Lands.answered (k := k) hq he none (some (s.dir.owner, fwdMsg kind c)) hx
    (update (update k.role o ((k.role o).addFwd (kind, c))) c r) (k.mq) ?_
  refine h.answered (fun y => ?_) (fun y hy => ?_) (by simpa using hr) (by simp) rfl
    (fun e => by rcases hd with hd | hd <;> simp [MemCurrent, hd, (h.coherent.idle (.inr (.inr (.inl hs)))).1] at e)
    (hco.scene (fun y => ?_) hack)
  · simp only [forwarded, ho, Finset.mem_singleton]
    by_cases hy : y = c
    · subst hy
      simp only [update_self, Ne.symm hoc, if_false]
      exact hg
    · simp only [update_of_ne hy]
      by_cases hyo : y = o
      · subst hyo
        simp only [update_self, if_true]
        exact hgo
      · simp only [update_of_ne hyo, if_neg hyo]
        exact .refl _ _
  · simp only [update_of_ne hy]
    by_cases hyo : y = o
    · subst hyo
      rw [update_self]
      exact hreq
    · rw [update_of_ne hyo]
  · by_cases hy : y = c
    · subst hy
      rw [update_self, hc]
    · rw [update_of_ne hy]
      by_cases hyo : y = o
      · subst hyo
        rw [update_self, hsto, hto]
      · rw [update_of_ne hyo, hother y hy hyo]

theorem getS_lands (h : Holds s k) {w : V} (hr : k.role c = .askS w) : Lands k.cur (s.step (.request c)) := by
  have hq : s.request c = [.getS] := by rw [(h.fits c).request, hr]; rfl
  have hout : Coherent.Outside k.standings c := by
    constructor <;> simp [Scene.standings, hr, Role.standing]
  have hmemory : s.dir.dirState = .I ∨ s.dir.dirState = .S →
      dirTransition s.dir.dirState .getS = some ([.sendMemRead, .addReqToSharers, .popRequestQueue], .S_m) →
      Lands k.cur (s.step (.request c)) := by
    intro hs ht
    have hidle := (h.coherent.idle (hs.imp_right .inl)).1
    refine Lands.answered (k := k) hq rfl (some (.read c)) none (dirTrigger_eq .getS _ .S_m ht rfl (by simp) (by simp))
      (update k.role c (.memS w)) (.read c) ?_
    refine h.answered (fun y => ?_) (fun y hy => by simp [hy]) (by simp [Role.request])
      (by simp [hidle, MemQueue.requests]) (by simp [hidle, MemQueue.responses])
      (fun _ => h.mem (by rcases hs with hs | hs <;> simp [MemCurrent, hs])) ?_
    · by_cases hy : y = c
      · subst hy
        simp only [update_self, hr]
        exact ⟨rfl, rfl, rfl, fun _ => rfl⟩
      · simp only [update_of_ne hy]
        exact .refl _ _
    · refine (h.coherent.readMemory hs hout).scene (fun y => ?_) rfl
      by_cases hy : y = c
      · subst hy
        simp [Standings.at, Scene.standings, hr, Role.standing]
      · simp [Standings.at, Scene.standings, hy]
  cases hs : s.dir.dirState with
  | I => exact hmemory (.inl hs) (by rw [hs]; rfl)
  | S => exact hmemory (.inr hs) (by rw [hs]; rfl)
  | M =>
    obtain ⟨o, ho⟩ := h.coherent.owned (.inl hs)
    have hoc : o ≠ c := hout.ne (h.owner_role hs ho).1
    have hcard : s.dir.owner.card = 1 := by simp [ho]
    refine .toOwner h hq rfl hs ho hout .getS (.fwdS w o)
      (d := { dirState := .S_D, sharers := insert c s.dir.sharers ∪ s.dir.owner, owner := ∅ }) ?_
      (by rw [hr]; exact ⟨rfl, rfl, rfl, fun _ => rfl⟩) rfl (.inl rfl) (h.coherent.readOwner hs ho hout) rfl ?_ ?_ ?_
    · refine dirTrigger_eq .getS [.sendFwdGetS, .addReqToSharers, .addOwnerToSharers, .clearOwner, .popRequestQueue] .S_D
        (by rw [hs]; rfl) ?_ (by simp) (by simp)
      simp [Slicc.runActions, dirAct, hcard, DirContext.requestor, DirContext.send, fwdMsg]
    · simp [Standings.at, Scene.standings, hr, Role.standing, Ne.symm hoc]
    · simp [Standings.at, Scene.standings, hoc, isGetS]
    · intro y hy hyo
      simp [Standings.at, Scene.standings, hy, hyo]
  | _ => exact .requestStalled h hq rfl (by rw [hs]; rfl) (by simp [hs]) (by simp [hs])

theorem getM_memory (h : Holds s k) (hq : s.request c = [.getM]) (hout : Coherent.Outside k.standings c) (w : Option V)
    (hg : (k.role c).Grown k.cur (.memM w 0) []) (hs : s.dir.dirState = .I ∨ s.dir.dirState = .S)
    (fw : Option (Finset C × ForwardMsg C))
    (hfw : ∀ y, forwarded fw y = if y ∈ s.dir.sharers.erase c then [.inv c] else [])
    (hx : dirTrigger s.dir (.request c (.getM : RequestMsg V)) .getM = .ok
      { dirState := .M_m, sharers := s.dir.sharers.erase c, owner := insert c s.dir.owner
        inMsg := .request c .getM
        out := [.memory (.read c)] ++ (fw.map fun p => DirOut.forward p.1 p.2).toList, popped := true }) :
    Lands k.cur (s.step (.request c)) := by
  have hidle := (h.coherent.idle (hs.imp_right .inl)).1
  obtain ⟨-, hMm, -, hnt, hnoS, hmem⟩ := h.coherent.ungranted hs
  have hquiet := h.coherent.quiet_of_noToken hnt
  -- a sharer has its data or a copy
  have hspec : ∀ y, (k.role y).standing.sharer = true →
      (k.role y).Grown k.cur ((k.role y).addInv c) [.inv c] ∧
        ((k.role y).addInv c).request k.cur = (k.role y).request k.cur ∧
        ((k.role y).addInv c).standing = { (k.role y).standing with sharer := false, inv := some c } := by
    intro y hy
    have hch : (k.role y).standing.chained = false := by
      by_contra hch
      rw [Bool.not_eq_false] at hch
      obtain ⟨n, hn⟩ := h.coherent.sharer_chained y hy hch
      exact hnoS y n hn
    refine Role.addInv_spec k.cur c hy hch ?_ (hmem y)
    by_contra hsrc
    obtain ⟨x, hx⟩ := Option.ne_none_iff_exists'.1 hsrc
    obtain ⟨kind, hk⟩ := (h.coherent.source x y).1 hx
    obtain rfl := (h.coherent.kind x y kind hk).2 hch
    exact hnoS x y hk
  refine Lands.answered (k := k) hq rfl (some (.read c)) fw hx
    (fun y => if y = c then .memM w 0 else if (k.role y).standing.sharer then (k.role y).addInv c else k.role y)
    (.read c) ?_
  refine h.answered (fun y => ?_) (fun y hy => ?_) (by simp [Role.request]) (by simp [hidle, MemQueue.requests])
    (by simp [hidle, MemQueue.responses]) (fun _ => h.mem (by rcases hs with hs | hs <;> simp [MemCurrent, hs])) ?_
  · rw [hfw]
    by_cases hy : y = c
    · subst hy
      simpa using hg
    · by_cases hsh : (k.role y).standing.sharer = true
      · have hin : y ∈ s.dir.sharers := (h.coherent.share hMm y).2 hsh
        simpa [hy, hsh, hin] using (hspec y hsh).1
      · have hin : y ∉ s.dir.sharers := fun e => hsh ((h.coherent.share hMm y).1 e)
        simpa [hy, hsh, hin] using Role.Grown.refl k.cur (k.role y)
  · by_cases hsh : (k.role y).standing.sharer = true
    · simpa [hy, hsh] using (hspec y hsh).2.1
    · simp [hy, hsh]
  · refine (h.coherent.writeMemory hs hout).scene (fun y => ?_) rfl
    by_cases hy : y = c
    · subst hy
      have h₁ := hout.source
      have h₂ := hout.fwd
      have h₃ := (hquiet y).1
      have hst : (Role.memM (C := C) w 0).standing = { chained := true, head := some (.memory 0), mem := true } := rfl
      simp only [Scene.standings] at h₁ h₂ h₃
      simp [Standings.at, Scene.standings, hst, h₁, h₂, h₃]
    · by_cases hsh : (k.role y).standing.sharer = true
      · simp [Standings.at, Scene.standings, hy, hsh, (hspec y hsh).2.2]
      · simp only [Standings.at, Scene.standings, hy, hsh, if_false, update_of_ne, ne_eq, not_false_eq_true,
          and_false, Bool.false_eq_true]
        simp only [Bool.not_eq_true] at hsh
        rw [← hsh]

theorem getM_owner (h : Holds s k) (hq : s.request c = [.getM]) (hout : Coherent.Outside k.standings c)
    (hs : s.dir.dirState = .M) {o : C} (ho : s.dir.owner = {o}) {r : Role C V} (hg : (k.role c).Grown k.cur r [])
    (hr : r.request k.cur = []) (hst : r.standing = { (k.role c).standing with chained := true, source := some o }) :
    Lands k.cur (s.step (.request c)) := by
  have hoc : o ≠ c := hout.ne (h.owner_role hs ho).1
  have hsh : (k.role o).standing.sharer = false := h.coherent.sharer_of_M hs o
  have hcard : s.dir.owner.card = 1 := by simp [ho]
  have hco := h.coherent.writeOwner hs ho hout
  rw [hs] at hco
  refine .toOwner h hq rfl hs ho hout .getM r (d := { dirState := .M, sharers := s.dir.sharers, owner := {c} }) ?_ hg hr
    (.inr rfl) hco rfl ?_ ?_ ?_
  · refine dirTrigger_eq .getM [.sendFwdGetM, .clearOwner, .setOwner, .popRequestQueue] .M
      (by rw [hs]; rfl) ?_ (fun _ => ?_) (by simp)
    · simp [Slicc.runActions, dirAct, hcard, DirContext.requestor, DirContext.send, fwdMsg]
    · simp [h.coherent.unshared (.inr (.inl hs))]
  · simp [Standings.at, Scene.standings, hst, Ne.symm hoc]
  · simp [Standings.at, Scene.standings, hoc, isGetS, hsh]
  · intro y hy hyo
    simp [Standings.at, Scene.standings, hy, hyo]

omit [DecidableEq C] [Inhabited V] in
theorem Role.getM_cases {r : Role C V} (h : r.request cur = [.getM]) :
    (∃ w, r = .askM w) ∨ ∃ inv, r = .upgrade inv := by
  cases r with
  | askM w => exact .inl ⟨w, rfl⟩
  | upgrade inv => exact .inr ⟨inv, rfl⟩
  | putS w m inv | gone w m => cases m <;> simp [Role.request, putMsg] at h
  | _ => simp [Role.request] at h

theorem getM_lands (h : Holds s k) (hc : (k.role c).request k.cur = [.getM]) : Lands k.cur (s.step (.request c)) := by
  have hq : s.request c = [.getM] := (h.fits c).request.trans hc
  have hcase := Role.getM_cases hc
  have hout : Coherent.Outside k.standings c := by
    rcases hcase with ⟨w, hr⟩ | ⟨inv, hr⟩ <;> constructor <;> simp [Scene.standings, hr, Role.standing]
  have hmemory : s.dir.dirState = .I ∨ s.dir.dirState = .S → ∃ w : Option V, (k.role c).Grown k.cur (.memM w 0) [] := by
    intro hs
    rcases hcase with ⟨w, hr⟩ | ⟨inv, hr⟩
    · exact ⟨some w, by rw [hr]; exact ⟨rfl, rfl, rfl, fun _ => rfl⟩⟩
    · obtain ⟨-, -, -, hnt, -⟩ := h.coherent.ungranted hs
      obtain rfl : inv = none := by simpa [Scene.standings, hr, Role.standing] using (h.coherent.quiet_of_noToken hnt c).1
      exact ⟨none, by rw [hr]; exact ⟨rfl, rfl, rfl, fun _ => rfl⟩⟩
  cases hs : s.dir.dirState with
  | I =>
    obtain ⟨w, hg⟩ := hmemory (.inl hs)
    have he := h.coherent.unshared (.inl hs)
    refine getM_memory h hq hout w hg (.inl hs) none (by simp [forwarded, he]) ?_
    refine dirTrigger_eq .getM [.sendMemRead, .setOwner, .popRequestQueue] .M_m (by rw [hs]; rfl) ?_ (by simp) (by simp)
    simp [Slicc.runActions, dirAct, DirContext.requestor, DirContext.send, he]
  | S =>
    obtain ⟨w, hg⟩ := hmemory (.inr hs)
    refine getM_memory h hq hout w hg (.inr hs) (some (s.dir.sharers.erase c, .inv c)) (by simp [forwarded]) ?_
    exact dirTrigger_eq .getM [.sendMemRead, .removeReqFromSharers, .sendInvToSharers, .setOwner, .popRequestQueue] .M_m
      (by rw [hs]; rfl) rfl (by simp) (by simp)
  | M =>
    obtain ⟨o, ho⟩ := h.coherent.owned (.inl hs)
    rcases hcase with ⟨w, hr⟩ | ⟨inv, hr⟩
    · exact getM_owner h hq hout hs ho (r := .waitM (.inl w) o none) (by rw [hr]; exact ⟨rfl, rfl, rfl, fun _ => rfl⟩) rfl
        (by rw [hr]; rfl)
    · cases inv with
      | none =>
        -- a sharer, but the directory has none
        have hsh := h.coherent.share (by simp [hs]) c
        rw [h.coherent.unshared (.inr (.inl hs))] at hsh
        simp [Scene.standings, hr, Role.standing] at hsh
      | some x =>
        exact getM_owner h hq hout hs ho (r := .waitM (.inr x) o none) (by rw [hr]; exact ⟨rfl, rfl, rfl, fun _ => rfl⟩)
          rfl (by rw [hr]; rfl)
  | _ => exact .requestStalled h hq rfl (by rw [hs]; rfl) (by simp [hs]) (by simp [hs])

/-! ### Giving a line back -/

/-- The role of a cache whose `Put` the directory has acknowledged, where it was not the owner's. -/
def Role.acked : Role C V → Role C V
  | putS w _ inv => putSAcked w inv
  | gone w _ => goneAcked w
  | putM (some (kind, n)) => putMFwd kind n
  | r => r

/-- The directory acknowledges a `Put` of a cache that does not own the line. -/
structure Role.Acks (cur : V) (r : Role C V) : Prop where
  grown : r.Grown cur r.acked [.putAck]
  request : r.acked.request cur = []
  standing : r.acked.standing = { r.standing with sharer := false }

omit [Inhabited V] in
theorem Role.Acks.grown_update (role : C → Role C V) (ha : (role c).Acks cur) (y : C) :
    (role y).Grown cur (update role c (role c).acked y) (forwarded (some ({c}, .putAck)) y) := by
  by_cases hy : y = c
  · subst hy
    simpa [forwarded] using ha.grown
  · simpa [forwarded, hy] using Role.Grown.refl cur (role y)

section

variable (h : Holds s k) (ha : (k.role c).Acks k.cur) (hq : s.request c = [m]) {event : DirEvent}
  (he : requestEvent s.dir c m = .ok event)
include h ha hq he

theorem Lands.putUnlisted (ht : dirTransition s.dir.dirState event = some ([.sendPutAck, .popRequestQueue], s.dir.dirState))
    (hs : s.dir.dirState = .I ∨ s.dir.dirState = .M ∨ s.dir.dirState = .M_m ∨ s.dir.dirState = .MI_m) :
    Lands k.cur (s.step (.request c)) := by
  have hsh : (k.role c).standing.sharer = false := by
    by_cases hMm : s.dir.dirState = .M_m
    · exact h.coherent.shareM hMm c
    · have hsh := h.coherent.share hMm c
      rw [h.coherent.unshared (by tauto)] at hsh
      simpa [Scene.standings] using hsh
  have hst : (k.role c).acked.standing = (k.role c).standing := by rw [ha.standing, ← hsh]
  have hx : dirTrigger s.dir (.request c m) event = .ok
      { s.dir with inMsg := .request c m, out := [.forward {c} .putAck], popped := true } := by
    refine dirTrigger_eq event _ s.dir.dirState ht rfl (fun e => ?_) (fun e => ?_)
    · obtain ⟨o, ho⟩ := h.coherent.owned (.inl e)
      simp [ho, h.coherent.unshared (.inr (.inl e))]
    · simp [h.coherent.unowned (by simp [e]) (by simp [e]), h.coherent.unshared (.inl e)]
  refine Lands.answered (k := k) hq he none (some ({c}, .putAck)) hx
    (update k.role c (k.role c).acked) (k.mq) ?_
  refine h.answered ha.grown_update (fun y hy => by simp [hy]) (by simpa using ha.request) (by simp) rfl h.mem ?_
  rw [show Scene.standings { k with role := update k.role c (k.role c).acked } = k.standings from
    k.standings_quiet hst]
  exact h.coherent

theorem Lands.putListed {next : DirState}
    (ht : dirTransition s.dir.dirState event =
      some ([.removeReqFromSharers, .sendPutAck, .popRequestQueue], next))
    (hs : s.dir.dirState = .S ∨ s.dir.dirState = .S_D ∨ s.dir.dirState = .SS_m ∨ s.dir.dirState = .S_m)
    (hnext : next = s.dir.dirState ∨ s.dir.dirState = .S ∧ next = .I ∧ s.dir.sharers.erase c = ∅) :
    Lands k.cur (s.step (.request c)) := by
  have hMm : s.dir.dirState ≠ .M_m := by rcases hs with hs | hs | hs | hs <;> simp [hs]
  have hM : s.dir.dirState ≠ .M := by rcases hs with hs | hs | hs | hs <;> simp [hs]
  have hI : s.dir.dirState ≠ .I := by rcases hs with hs | hs | hs | hs <;> simp [hs]
  have hx : dirTrigger s.dir (.request c m) event = .ok
      { dirState := next, sharers := s.dir.sharers.erase c, owner := s.dir.owner
        inMsg := .request c m, out := [.forward {c} .putAck], popped := true } := by
    refine dirTrigger_eq event _ next ht rfl (fun e => ?_) (fun e => ?_)
    · rcases hnext with hn | ⟨-, hn, -⟩
      · exact absurd (hn.symm.trans e) hM
      · rw [hn] at e
        cases e
    · rcases hnext with hn | ⟨hS, -, hemp⟩
      · exact absurd (hn.symm.trans e) hI
      · simp [hemp, h.coherent.unowned hM hMm]
  have hco := h.coherent.unshare c hMm
  have hco' : Coherent { dirState := next, sharers := s.dir.sharers.erase c, owner := s.dir.owner }
      { k.standings with sharer := update k.standings.sharer c false } k.toDir k.mq := by
    rcases hnext with rfl | ⟨hS, rfl, hemp⟩
    · exact hco
    · exact hco.lastShared hS hemp
  refine Lands.answered (k := k) hq he none (some ({c}, .putAck)) hx
    (update k.role c (k.role c).acked) (k.mq) ?_
  refine h.answered ha.grown_update (fun y hy => by simp [hy]) (by simpa using ha.request) (by simp) rfl
    (fun e => h.mem ?_) ?_
  · rcases hnext with rfl | ⟨hS, -, -⟩
    · exact e
    · simp [MemCurrent, hS]
  · refine hco'.scene (fun y => ?_) rfl
    by_cases hy : y = c
    · subst hy
      simp [Standings.at, Scene.standings, ha.standing]
    · simp [Standings.at, Scene.standings, hy]

end

theorem Lands.putAnswered (h : Holds s k) (ha : (k.role c).Acks k.cur) {m : RequestMsg V} {e : DirEvent}
    (hq : s.request c = [m]) (he : requestEvent s.dir c m = .ok e) (hev : e = .putSNotLast ∨ e = .putMNonOwner) :
    Lands k.cur (s.step (.request c)) := by
  have htr : dirTransition s.dir.dirState e = dirTransition s.dir.dirState .putMNonOwner := by
    rcases hev with rfl | rfl <;> cases s.dir.dirState <;> rfl
  cases hs : s.dir.dirState with
  | I | M | M_m | MI_m => exact .putUnlisted h ha hq he (by rw [htr, hs]; rfl) (by simp [hs])
  | S | S_D | SS_m | S_m => exact .putListed h ha hq he (by rw [htr, hs]; rfl) (by simp [hs]) (.inl hs.symm)

/-- The directory takes a `PutS` of a cache for the last one, and either the cache is no sharer or the directory has no
transition. -/
def PutSRace (d : DirEntry C) (c : C) : Prop := d.sharers.card = 1 ∧ (c ∉ d.sharers ∨ d.dirState = .SS_m)

theorem Lands.putS (h : Holds s k) (ha : (k.role c).Acks k.cur) (hq : s.request c = [.putS])
    (hmem : (k.role c).standing.mem = false) (hrace : ¬ PutSRace s.dir c) : Lands k.cur (s.step (.request c)) := by
  by_cases hcard : s.dir.sharers.card = 1
  · have hin : c ∈ s.dir.sharers := by
      by_contra hin
      exact hrace ⟨hcard, .inl hin⟩
    have he : requestEvent s.dir c (.putS : RequestMsg V) = .ok .putSLast := by simp [requestEvent, hcard, hin]
    have honly : s.dir.sharers = {c} := by
      obtain ⟨x, hx⟩ := Finset.card_eq_one.1 hcard
      rw [hx] at hin ⊢
      rw [Finset.mem_singleton.1 hin]
    cases hs : s.dir.dirState with
    | I | M | M_m | MI_m => exact .putUnlisted h ha hq he (by rw [hs]; rfl) (by simp [hs])
    | S => exact .putListed h ha hq he (by rw [hs]; rfl) (.inl hs) (.inr ⟨hs, rfl, by simp [honly]⟩)
    | S_D => exact .putListed h ha hq he (by rw [hs]; rfl) (.inr (.inl hs)) (.inl hs.symm)
    | SS_m => exact absurd ⟨hcard, .inr hs⟩ hrace
    | S_m =>
      -- the cache that memory reads for is a sharer too
      have hok := h.coherent.memOk
      simp only [hs, MemOk] at hok
      obtain ⟨r, hr, hch⟩ := hok
      have hrm : (k.role r).standing.mem = true := (h.coherent.mem r).2 hr
      have hrs : (k.role r).standing.sharer = true := by
        obtain ⟨w, hrole⟩ | ⟨w, got, hrole⟩ := Role.mem_cases hrm
        · rw [hrole]; rfl
        · simp [Scene.standings, hrole, Role.standing] at hch
      have hrin : r ∈ s.dir.sharers := (h.coherent.share (by simp [hs]) r).2 hrs
      rw [honly, Finset.mem_singleton] at hrin
      rw [hrin, hmem] at hrm
      cases hrm
  · have he : requestEvent s.dir c (.putS : RequestMsg V) = .ok .putSNotLast := by simp [requestEvent, hcard]
    exact .putAnswered h ha hq he (.inl rfl)

theorem Lands.putMNonOwner (h : Holds s k) (ha : (k.role c).Acks k.cur) {v : V} (hq : s.request c = [.putM v])
    (hown : c ∉ s.dir.owner) : Lands k.cur (s.step (.request c)) := by
  have he : requestEvent s.dir c (.putM v) = .ok .putMNonOwner := by simp [requestEvent, hown]
  exact .putAnswered h ha hq he (.inr rfl)

theorem Lands.putMOwner (h : Holds s k) (hr : k.role c = .putM none) : Lands k.cur (s.step (.request c)) := by
  have hq : s.request c = [.putM k.cur] := by rw [(h.fits c).request, hr]; rfl
  have hst : (k.role c).standing = { chained := true } := by rw [hr]; rfl
  have hown : c ∈ s.dir.owner := (h.coherent.own c).2 ⟨by simp [Scene.standings, hst], by simp [Scene.standings, hst]⟩
  have htok : k.standings.token c := ⟨by simp [Scene.standings, hst], by simp [Scene.standings, hst]⟩
  have hMm := h.coherent.noMemory htok (by simp [Scene.standings, hst])
  have hs : s.dir.dirState = .M := by
    by_contra hs
    rw [h.coherent.unowned hs hMm] at hown
    cases hown
  have hidle := (h.coherent.idle (.inr (.inr (.inl hs)))).1
  have he : requestEvent s.dir c (.putM k.cur) = .ok .putMOwner := by simp [requestEvent, hown]
  have hx : dirTrigger s.dir (.request c (.putM k.cur)) .putMOwner = .ok
      { s.dir with
        dirState := .MI_m, owner := ∅, inMsg := .request c (.putM k.cur)
        out := [.memory (.write k.cur), .forward {c} .putAck], popped := true } :=
    dirTrigger_eq .putMOwner [.sendDataToMem, .clearOwner, .sendPutAck, .popRequestQueue] .MI_m (by rw [hs]; rfl) rfl
      (by simp) (by simp)
  refine Lands.answered (k := k) hq he (some (.write k.cur)) (some ({c}, .putAck)) hx
    (update k.role c (.putMDone k.cur)) (.write) ?_
  refine h.answered (fun y => ?_) (fun y hy => by simp [hy]) (by simp [Role.request])
    (by simp [hidle, MemQueue.requests]) (by simp [hidle, MemQueue.responses]) (fun e => by simp [MemCurrent] at e) ?_
  · by_cases hy : y = c
    · subst hy
      simp only [update_self, hr, forwarded, Finset.mem_singleton, if_true]
      exact ⟨rfl, rfl, rfl, fun _ => rfl⟩
    · simpa [forwarded, hy] using Role.Grown.refl k.cur (k.role y)
  · refine (h.coherent.writeback hs htok (by simp [Scene.standings, hst]) hown).scene (fun y => ?_) rfl
    by_cases hy : y = c
    · subst hy
      simp [Standings.at, Scene.standings, hr, Role.standing, isGetS]
    · simp [Standings.at, Scene.standings, hy]

/-- **A request at the directory**, where it is no `PutS` taken for the last. -/
theorem request_lands (h : Holds s k) (c : C)
    (hrace : ∀ rest, s.request c = .putS :: rest → ¬ PutSRace s.dir c) : Lands k.cur (s.step (.request c)) := by
  have hf := (h.fits c).request
  have hnil : (k.role c).request k.cur = [] → Lands k.cur (s.step (.request c)) := by
    intro hn
    simp only [Line.step, hf, hn]
    exact .idle h
  have hput : ∀ m : Option V, (k.role c).request k.cur = [putMsg m] → (k.role c).Acks k.cur →
      (k.role c).standing.mem = false → c ∉ s.dir.owner → Lands k.cur (s.step (.request c)) := by
    intro m hq ha hmem hown
    cases m with
    | none => exact .putS h ha (hf.trans hq) hmem (hrace [] (hf.trans hq))
    | some v => exact .putMNonOwner h ha (hf.trans hq) hown
  have hnotown : (k.role c).standing.chained = false ∨ (k.role c).standing.fwd ≠ none → c ∉ s.dir.owner := by
    intro hc hown
    obtain ⟨h₁, h₂⟩ := (h.coherent.own c).1 hown
    simp only [Scene.standings] at h₁ h₂
    rcases hc with hc | hc
    · rw [hc] at h₁
      cases h₁
    · exact hc h₂
  cases hr : k.role c with
  | askS w => exact getS_lands h hr
  | askM w | upgrade inv => exact getM_lands h (by rw [hr]; rfl)
  | putS w m inv | gone w m =>
    refine hput m (by rw [hr]; rfl) ?_ (by rw [hr]; rfl) (hnotown (.inl (by rw [hr]; rfl)))
    rw [hr]
    exact ⟨⟨rfl, rfl, rfl, fun _ => rfl⟩, rfl, rfl⟩
  | putM fwd =>
    cases fwd with
    | none => exact .putMOwner h hr
    | some f =>
      refine hput (some k.cur) (by rw [hr]; rfl) ?_ (by rw [hr]; rfl) (hnotown (.inr (by rw [hr]; simp [Role.standing])))
      rw [hr]
      exact ⟨⟨rfl, rfl, rfl, fun _ => rfl⟩, rfl, rfl⟩
  | _ => exact hnil (by rw [hr]; rfl)

theorem request_fails {rest : List (RequestMsg V)} (hq : s.request c = .putS :: rest) (hrace : PutSRace s.dir c) :
    ∃ f, s.step (.request c) = .error f := by
  obtain ⟨hcard, hin⟩ := hrace
  by_cases hc : c ∈ s.dir.sharers
  · have hs : s.dir.dirState = .SS_m := by tauto
    have he : requestEvent s.dir c (.putS : RequestMsg V) = .ok .putSLast := by simp [requestEvent, hcard, hc]
    exact ⟨_, by simp only [Line.step, hq, requestIn, he, Run.ok_bind, dirTrigger, Slicc.doTransition, hs]; rfl⟩
  · have he : requestEvent s.dir c (.putS : RequestMsg V) = .error .assertFailed := by
      simp [requestEvent, hcard, hc, assertThat]
    exact ⟨_, by simp only [Line.step, hq, requestIn, he]; rfl⟩

end Gem5.Msi
