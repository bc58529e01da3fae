import Gem5Cxl.MsiRole
/-!
# MsiCacheStep — what a cache does with a line it holds as a scene has it
-/
namespace Gem5.Msi

open Function (update update_of_ne update_self)
open TaggedFifo

variable {C V : Type} [DecidableEq C] {s : Line C V} {k : Scene C V} {c : C}

/-! ## Stalls and hits -/

variable {x : CacheContext C V} {r : Role C V} {y n : C} {v : V}

theorem Line.afterCache_same (hl : x.toCacheLine = s.cache c) (ho : x.out = []) : s.afterCache c x = s := by
  rw [Line.afterCache, ho, hl, Function.update_eq_self]
  rfl

theorem Line.popForward_false : s.popForward c false = s := by
  simp [Line.popForward, pop]

theorem Lands.stay (h : Holds s k) (hl : x.toCacheLine = (k.role c).cacheLine k.cur) (ho : x.out = [])
    (hlog : x.log = [] ∨ x.log = [.load k.cur]) : Lands k.cur (.ok (s.afterCache c x, x.log.map (c, ·))) := by
  rw [Line.afterCache_same (hl.trans (h.fits c).cache.symm) ho]
  refine ⟨s, _, k, rfl, h, ?_⟩
  rcases hlog with hlog | hlog
  · exact .inl ⟨by rw [hlog]; rfl, rfl⟩
  · exact .inr (.inl ⟨⟨c, by rw [hlog]; rfl⟩, rfl⟩)

/-- A request leaves the cache, and nothing else of it is on its way that was not before. -/
theorem Lands.ask (h : Holds s k) (hr : k.role c = r) (r' : Role C V) {m : RequestMsg V}
    (hl : x.toCacheLine = r'.cacheLine k.cur) (ho : x.out = [.request m]) (hreq : r'.request k.cur = r.request k.cur ++ [m])
    (hst : r'.standing = r.standing) (hfw : r'.forward = r.forward) (hfd : r'.fromDir k.cur = r.fromDir k.cur)
    (hfc : ∀ y, r'.fromCache k.cur y = r.fromCache k.cur y) : Lands k.cur (.ok (s.afterCache c x, [])) := by
  have hf := h.fits c
  rw [hr] at hf
  refine ⟨_, _, k.setRole c r', rfl, ?_, .inl ⟨rfl, rfl⟩⟩
  have hsent : s.afterCache c x = Line.send c { s with cache := update s.cache c x.toCacheLine } (.request m) := by
    rw [Line.afterCache, ho]
    rfl
  refine h.quiet (fun y hy => .afterCache hy (by simp [ho])) ?_ ?_ (hst.trans (by rw [hr]))
  · rw [hsent]
    exact ⟨(update_self ..).trans hl, (update_self ..).trans (by rw [hreq, ← hf.request]),
      hf.forward.trans hfw.symm, hf.fromDir.trans hfd.symm, fun y => (hf.fromCache y).trans (by rw [hfc])⟩
  · rw [hsent]
    exact ⟨rfl, rfl, rfl, rfl, rfl⟩

variable [Inhabited V]

omit [DecidableEq C] in
theorem load_stays (cur : V) (r : Role C V) (hr : r ≠ .idle) : ∃ x : CacheContext C V,
    mandatoryIn C (r.cacheLine cur) .load id = .ok x ∧ x.toCacheLine = r.cacheLine cur ∧ x.out = [] ∧
      (x.log = [] ∨ x.log = [.load cur]) := by
  cases r with
  | idle => exact absurd rfl hr
  | shared _ | upgrade _ | owner _ => exact ⟨_, rfl, rfl, rfl, .inr rfl⟩
  | waitM w _ _ =>
    cases w with
    | inl w => exact ⟨_, rfl, rfl, rfl, .inl rfl⟩
    | inr h => exact ⟨_, rfl, rfl, rfl, .inr rfl⟩
  | memM w _ | dirM w _ _ _ =>
    cases w with
    | some w => exact ⟨_, rfl, rfl, rfl, .inl rfl⟩
    | none => exact ⟨_, rfl, rfl, rfl, .inr rfl⟩
  | collect sm _ _ =>
    cases sm with
    | false => exact ⟨_, rfl, rfl, rfl, .inl rfl⟩
    | true => exact ⟨_, rfl, rfl, rfl, .inr rfl⟩
  | _ => exact ⟨_, rfl, rfl, rfl, .inl rfl⟩

omit [DecidableEq C] in
theorem mandatory_stalls (cur : V) (event : CacheEvent) (he : event = .store ∨ event = .replacement) (value : V → V)
    (h₁ : r ≠ .idle) (h₂ : ∀ inv, r ≠ .shared inv) (h₃ : ∀ fwd, r ≠ .owner fwd) :
    ∃ x : CacheContext C V, mandatoryIn C (r.cacheLine cur) event value = .ok x ∧
      x.toCacheLine = r.cacheLine cur ∧ x.out = [] ∧ x.log = [] := by
  cases r with
  | idle => exact absurd rfl h₁
  | shared inv => exact absurd rfl (h₂ inv)
  | owner fwd => exact absurd rfl (h₃ fwd)
  | waitM w _ _ => rcases he with rfl | rfl <;> cases w <;> exact ⟨_, rfl, rfl, rfl, rfl⟩
  | memM w _ => rcases he with rfl | rfl <;> cases w <;> exact ⟨_, rfl, rfl, rfl, rfl⟩
  | dirM w _ _ _ => rcases he with rfl | rfl <;> cases w <;> exact ⟨_, rfl, rfl, rfl, rfl⟩
  | collect sm _ _ => rcases he with rfl | rfl <;> cases sm <;> exact ⟨_, rfl, rfl, rfl, rfl⟩
  | _ => rcases he with rfl | rfl <;> exact ⟨_, rfl, rfl, rfl, rfl⟩

theorem load_lands (h : Holds s k) (c : C) : Lands k.cur (s.step (.load c)) := by
  have hf := h.fits c
  by_cases hr : k.role c = .idle
  · rw [hr] at hf
    simp only [Line.step, hf.cache, Role.cacheLine]
    exact .ask h hr (.askS default) rfl rfl rfl rfl rfl rfl fun _ => rfl
  · obtain ⟨x, hx, hl, ho, hlog⟩ := load_stays k.cur (k.role c) hr
    simp only [Line.step, hf.cache, hx, Run.ok_bind, Run.pure_eq_ok]
    exact .stay h hl ho hlog

/-! ## The owner changes the line -/

omit [Inhabited V] in
def Role.Stale : Role C V → Prop
  | idle | askS _ | memS _ | fwdS _ _ | putS _ _ _ | putSAcked _ _ | askM _ | waitM (.inl _) _ _ | putMDone _ | gone _ _
  | goneAcked _ => True
  | _ => False

omit [Inhabited V] in
theorem Role.Stale.fits (hr : r.Stale) {cur : V} {ack : C → Option C} (h : Fits s cur ack c r) (v : V) :
    Fits s v ack c r := by
  cases r with
  | waitM w x fwd =>
    cases w with
    | inl w => exact { h with }
    | inr y => cases hr
  | idle | askS _ | memS _ | fwdS _ _ | putS _ _ _ | putSAcked _ _ | askM _ | putMDone _ | gone _ _ | goneAcked _ =>
    exact { h with }
  | _ => cases hr

omit [Inhabited V] in
/-- **While a cache has the line alone**, no other has a present copy. -/
theorem Holds.stale (h : Holds s k) {x : C} (hx : k.standings.token x) (hh : k.standings.head x = none) (hy : y ≠ x) :
    (k.role y).Stale := by
  obtain ⟨hnt, hinv, hsh⟩ := h.coherent.alone hx hh hy
  simp only [Standings.token, Scene.standings] at hnt hinv hsh
  cases hr : k.role y with
  | waitM w z fwd =>
    cases w with
    | inl w => trivial
    | inr z => simp [hr, Role.standing] at hinv
  | dataS _ _ inv | shared inv | upgrade inv =>
    cases inv with
    | none => simp [hr, Role.standing] at hsh
    | some z => simp [hr, Role.standing] at hinv
  | idle | askS _ | memS _ | fwdS _ _ | putS _ _ _ | putSAcked _ _ | askM _ | putMDone _ | gone _ _ | goneAcked _ =>
    trivial
  | _ => simp [hr, Role.standing] at hnt

omit [Inhabited V] in
theorem Holds.commit (h : Holds s k) {fwd : Option (Kind × C)} (hr : k.role c = .owner fwd) (v : V) :
    Holds { s with cache := update s.cache c (resting .M v) } { k with cur := v } := by
  have hst : (k.role c).standing = { chained := true, fwd, sharer := isGetS fwd } := by rw [hr]; rfl
  have hx : k.standings.token c := ⟨by simp [Scene.standings, hst], by simp [Scene.standings, hst]⟩
  have hh : k.standings.head c = none := by simp [Scene.standings, hst]
  have hm : k.standings.mem c = false := by simp [Scene.standings, hst]
  obtain ⟨hdir, htd⟩ : (s.dir.dirState = .M ∨ s.dir.dirState = .S_D) ∧ k.toDir = none := by
    rcases h.coherent.tokenAt c hx with hs | hs | ⟨hs, htd⟩
    · exact ⟨.inl hs, h.coherent.toDir_eq_none (by simp [hs])⟩
    · exact absurd hs (h.coherent.noMemory hx hm)
    · exact ⟨.inr hs, htd⟩
  have hmq : k.mq = .idle := (h.coherent.idle (.inr (.inr hdir))).1
  refine ⟨fun y => ?_, fun y => ?_, ?_, ?_, fun hd => ?_, h.coherent⟩
  · by_cases hy : y = c
    · subst hy
      have hf := h.fits y
      simp only [hr] at hf ⊢
      exact { hf with cache := update_self .. }
    · have hf := (h.stale hx hh hy).fits (h.fits y) v
      exact hf.congr ⟨by simp [hy], rfl, rfl, fun _ => rfl⟩
  · simpa [htd] using h.toDir y
  · simpa [hmq, MemQueue.requests] using h.memReq
  · simpa [hmq, MemQueue.responses] using h.memResp
  · rcases hdir with hs | hs <;> simp [MemCurrent, hs, hmq] at hd

theorem store_lands (h : Holds s k) (c : C) (value : V → V) : Lands k.cur (s.step (.store c value)) := by
  have hf := h.fits c
  have hstall := mandatory_stalls k.cur (r := k.role c) .store (.inl rfl) value
  cases hr : k.role c with
  | idle =>
    rw [hr] at hf
    simp only [Line.step, hf.cache, Role.cacheLine]
    exact .ask h hr (.askM default) rfl rfl rfl rfl rfl rfl fun _ => rfl
  | shared inv =>
    rw [hr] at hf
    simp only [Line.step, hf.cache, Role.cacheLine]
    exact .ask h hr (.upgrade inv) rfl rfl rfl rfl rfl rfl fun _ => rfl
  | owner fwd =>
    rw [hr] at hf
    simp only [Line.step, hf.cache, Role.cacheLine]
    exact ⟨_, _, { k with cur := value k.cur }, rfl, h.commit hr (value k.cur), .inr (.inr ⟨c, rfl⟩)⟩
  | _ =>
    obtain ⟨x, hx, hl, ho, hlog⟩ := hstall (by simp [hr]) (by simp [hr]) (by simp [hr])
    simp only [Line.step, hf.cache, hx, Run.ok_bind, Run.pure_eq_ok]
    exact .stay h hl ho (.inl hlog)

omit [Inhabited V] in
theorem Lands.idle (h : Holds s k) : Lands k.cur (.ok (s, [])) := ⟨s, [], k, rfl, h, .inl ⟨rfl, rfl⟩⟩

theorem replacement_lands (h : Holds s k) (c : C) : Lands k.cur (s.step (.replacement c)) := by
  have hf := h.fits c
  have hstall := mandatory_stalls k.cur (r := k.role c) .replacement (.inr rfl) id
  by_cases he : (s.cache c).cacheEntry.isNone = true
  · simp only [Line.step, if_pos he]
    exact .idle h
  simp only [Line.step, if_neg he]
  cases hr : k.role c with
  | idle =>
    rw [hr] at hf
    simp [hf.cache, Role.cacheLine] at he
  | shared inv =>
    rw [hr] at hf
    simp only [hf.cache, Role.cacheLine]
    exact .ask h hr (.putS k.cur none inv) rfl rfl rfl rfl rfl rfl fun _ => rfl
  | owner fwd =>
    rw [hr] at hf
    simp only [hf.cache, Role.cacheLine]
    exact .ask h hr (.putM fwd) rfl rfl rfl rfl rfl rfl fun _ => rfl
  | _ =>
    obtain ⟨x, hx, hl, ho, hlog⟩ := hstall (by simp [hr]) (by simp [hr]) (by simp [hr])
    simp only [hf.cache, hx, Run.ok_bind, Run.pure_eq_ok]
    exact .stay h hl ho (.inl hlog)

/-! ## Responses -/

omit [DecidableEq C] [Inhabited V] in
theorem Role.fromDir_cases (cur : V) (r : Role C V) : r.fromDir cur = [] ∨
    (∃ w inv, r = .dataS w .directory inv) ∨ ∃ w acks got fwd, r = .dirM w acks got fwd := by
  cases r with
  | dataS w sender inv =>
    cases sender with
    | directory => exact .inr (.inl ⟨w, inv, rfl⟩)
    | cache x => exact .inl rfl
  | dirM w acks got fwd => exact .inr (.inr ⟨w, acks, got, fwd, rfl⟩)
  | _ => exact .inl rfl

omit [DecidableEq C] in
theorem responseIn_read (w v : V) (sender : Sender C) (value : V → V) :
    responseIn (busy .IS_D w 0) sender (.data v 0) value =
      .ok { resting .S v with inMsg := .response (.data v 0), store := value, log := [.load v], popped := true } := by
  cases sender <;> rfl

def dataState (w : Option V) : CacheState := if w.isSome then .IM_AD else .SM_AD

omit [DecidableEq C] [Inhabited V] in
theorem Role.cacheLine_dirM (cur : V) (w : Option V) (acks : Int) (got : Nat) (fwd : Option (Kind × C)) :
    (Role.dirM w acks got fwd).cacheLine cur = busy (dataState w) (w.getD cur) (-got) := by
  cases w <;> rfl

omit [DecidableEq C] in
theorem responseIn_write (w : Option V) (u v : V) (acks out : Int) (h : acks + out = 0) (value : V → V) :
    responseIn (C := C) (busy (dataState w) u out) .directory (.data v acks) value =
      .ok { resting .M (value v) with
        inMsg := .response (.data v acks), store := value, log := [.store (value v)], popped := true } := by
  have hev : responseEvent (C := C) ⟨dataState w, out⟩ .directory (.data v acks) = .ok .dataDirNoAcks := by
    simp [responseEvent, h]
  exact (congrArg (· >>= cacheTrigger _ _ _) hev).trans (by cases w <;> rfl)

omit [DecidableEq C] in
theorem storeAcks_ok {t : TBE} {acks : Int} (ht : x.tbe = some t) (hm : x.inMsg = .response (.data v acks))
    (h : 0 < acks + t.acksOutstanding) :
    cacheAct .storeAcks x = .ok { x with tbe := some { t with acksOutstanding := acks + t.acksOutstanding } } := by
  simp [cacheAct, CacheContext.theTbe, ht, CacheContext.response, hm, h]

omit [DecidableEq C] in
theorem responseIn_collect (w : Option V) (u v : V) (acks out : Int) (h : 0 < acks + out) (value : V → V) :
    responseIn (C := C) (busy (dataState w) u out) .directory (.data v acks) value =
      .ok { busy (if w.isNone then .SM_A else .IM_A) v (acks + out) with
        inMsg := .response (.data v acks), store := value, popped := true } := by
  have hev : responseEvent (C := C) ⟨dataState w, out⟩ .directory (.data v acks) = .ok .dataDirAcks := by
    simp [responseEvent, h.le, h.ne.symm]
  have htr : cacheTrigger (C := C) (busy (dataState w) u out) (.response (.data v acks)) value .dataDirAcks =
      (do
        let x ← (do
          let x ← cacheAct .storeAcks
            { busy (dataState w) v out with inMsg := .response (.data v acks), store := value }
          Slicc.runActions cacheAct [.popResponseQueue] x)
        .ok { x with toCacheLine := x.setState (if w.isNone then .SM_A else .IM_A) }) := by
    cases w <;> rfl
  rw [storeAcks_ok rfl rfl h] at htr
  exact (congrArg (· >>= cacheTrigger _ _ _) hev).trans htr

omit [Inhabited V] in
theorem Lands.store (fwd : Option (Kind × C))
    (h : Holds { s with cache := update s.cache c (resting .M k.cur) } (k.setRole c (.owner fwd)))
    (hl : x.toCacheLine = resting .M v) (ho : x.out = []) (hlog : x.log = [.store v]) :
    Lands k.cur (.ok (s.afterCache c x, x.log.map (c, ·))) := by
  refine ⟨_, _, { k.setRole c (.owner fwd) with cur := v }, rfl, ?_, .inr (.inr ⟨c, by rw [hlog]; rfl⟩)⟩
  have hc := h.commit (Scene.setRole_role_self k c _) v
  simp only [Function.update_idem] at hc
  rw [Line.afterCache, ho, hl]
  exact hc

omit [Inhabited V] in
theorem Line.popResponse_self (sender : Sender C) (p : Bool) :
    (s.popResponse sender c p).response sender c = pop p (s.response sender c) := if_pos ⟨rfl, rfl⟩

omit [Inhabited V] in
theorem Line.popResponse_of_ne (s : Line C V) (c : C) {x y : Sender C} (h : y ≠ x) :
    (s.popResponse x c true).response y c = s.response y c := if_neg fun e => h e.1

omit [Inhabited V] in
theorem SameAt.respond (hy : y ≠ c) (sender : Sender C) (l : CacheLine V) :
    SameAt s { s.popResponse sender c true with cache := update s.cache c l } y :=
  (SameAt.popResponse hy sender true).trans ⟨by simp [hy, Line.popResponse], rfl, rfl, fun _ => rfl⟩

theorem responseD_lands (h : Holds s k) (c : C) (value : V → V) :
    Lands k.cur (s.step (.response .directory c value)) := by
  have hf := h.fits c
  rcases (k.role c).fromDir_cases k.cur with hr | ⟨w, inv, hr⟩ | ⟨w, acks, got, fwd, hr⟩
  · simp only [Line.step, hf.fromDir, hr]
    exact .idle h
  · rw [hr] at hf
    simp only [Line.step, hf.fromDir, Role.fromDir, hf.cache, Role.cacheLine, responseIn_read, Run.ok_bind,
      Run.pure_eq_ok]
    refine ⟨_, _, k.setRole c (.shared inv), rfl, ?_, .inr (.inl ⟨⟨c, rfl⟩, rfl⟩)⟩
    refine h.quiet (fun y hy => .respond hy _ _) ?_ ⟨rfl, rfl, rfl, rfl, rfl⟩ (by rw [hr]; rfl)
    exact { hf with
      cache := update_self ..
      fromDir := (Line.popResponse_self ..).trans (by rw [hf.fromDir]; rfl)
      fromCache := fun x => (s.popResponse_of_ne c (x := .directory) (y := .cache x) (by simp)).trans (hf.fromCache x) }
  · have hhead : k.standings.head c = some (.number (acks - got)) := by simp [Scene.standings, hr, Role.standing]
    have hnn : 0 ≤ acks - got := by
      obtain ⟨p, -, hp⟩ := h.coherent.pending
      have := hp c _ hhead
      simp only [Owed.amount] at this
      omega
    rw [hr] at hf
    have hfits : ∀ (r : Role C V), r.request k.cur = [] → r.forward = fwdMsgs fwd → r.fromDir k.cur = [] →
        (∀ x, r.fromCache k.cur x = []) →
        Fits { s.popResponse .directory c true with cache := update s.cache c (r.cacheLine k.cur) } k.cur k.ack c
          r := by
      intro r hq hfw hd hc
      refine ⟨update_self .., hf.request.trans hq.symm, hf.forward.trans hfw.symm, ?_, fun x => ?_⟩
      · exact (Line.popResponse_self ..).trans (by rw [hf.fromDir, hd]; rfl)
      · exact (s.popResponse_of_ne c (x := .directory) (y := .cache x) (by simp)).trans (by rw [hf.fromCache, hc]; rfl)
    simp only [Line.step, hf.fromDir, Role.fromDir, hf.cache, Role.cacheLine_dirM]
    by_cases h0 : acks - got = 0
    · rw [responseIn_write w _ _ _ _ (by omega)]
      refine Lands.store fwd ?_ rfl rfl rfl
      refine h.setRole (fun y hy => .respond hy _ _) (hfits (.owner fwd) rfl rfl rfl fun _ => rfl)
        ⟨rfl, rfl, rfl, rfl, rfl⟩ ?_
      rw [h0] at hhead
      rw [k.standings_head (o := none) (by rw [hr]; rfl)]
      exact h.coherent.collected hhead
    · rw [responseIn_collect w _ _ _ _ (by omega)]
      obtain ⟨n, hn⟩ : ∃ n : Nat, acks - got = n + 1 := ⟨(acks - got - 1).toNat, by omega⟩
      refine ⟨_, _, k.setRole c (.collect w.isNone n fwd), rfl, ?_, .inl ⟨rfl, rfl⟩⟩
      have hl : (Role.collect w.isNone n fwd).cacheLine k.cur =
          busy (if w.isNone then .SM_A else .IM_A) k.cur (acks + -got) := by
        rw [show acks + -(got : Int) = n + 1 by omega]
        rfl
      refine h.quiet (fun y hy => .respond hy _ _) ?_ ⟨rfl, rfl, rfl, rfl, rfl⟩
        (by rw [hr]; simp [Role.standing, hn])
      have hc := hfits (.collect w.isNone n fwd) rfl rfl rfl fun _ => rfl
      rw [hl] at hc
      exact hc

/-! ## Acknowledgements -/

omit [DecidableEq C] in
theorem responseIn_invAck {st : CacheState} {out : Int} (u : V) (x : C) (value : V → V)
    (hst : cacheTransition st .invAck = some ([.decrAcks, .popResponseQueue], st)) (h : out ≠ 1) :
    responseIn (busy st u out) (.cache x) .invAck value =
      .ok { busy st u (out - 1) with inMsg := .response .invAck, store := value, popped := true } := by
  simp only [responseIn, busy, responseEvent, if_neg h, Run.ok_bind, cacheTrigger, Slicc.doTransition,
    CacheLine.getState, hst]
  rfl

omit [DecidableEq C] in
theorem responseIn_lastInvAck (sm : Bool) (u : V) (x : C) (value : V → V) :
    responseIn (busy (if sm then .SM_A else .IM_A) u 1) (.cache x) .invAck value =
      .ok { resting .M (value u) with
        inMsg := .response .invAck, store := value, log := [.store (value u)], popped := true } := by
  cases sm <;> rfl

omit [DecidableEq C] [Inhabited V] in
theorem Role.head_cases (h : r.standing.head ≠ none) : (∃ w got, r = .memM w got) ∨
    (∃ w acks got fwd, r = .dirM w acks got fwd) ∨ ∃ sm n fwd, r = .collect sm n fwd := by
  cases r with
  | memM w got => exact .inl ⟨w, got, rfl⟩
  | dirM w acks got fwd => exact .inr (.inl ⟨w, acks, got, fwd, rfl⟩)
  | collect sm n fwd => exact .inr (.inr ⟨sm, n, fwd, rfl⟩)
  | waitM w x fwd => cases w <;> exact absurd rfl h
  | _ => exact absurd rfl h

omit [Inhabited V] in
theorem Holds.takeAck (h : Holds s k) {x : C} (hx : k.ack x = some c)
    (hq : r.request k.cur = (k.role c).request k.cur) (hfw : r.forward = (k.role c).forward)
    (hd : r.fromDir k.cur = (k.role c).fromDir k.cur) (hfc : ∀ z, (k.role c).fromCache k.cur z = [])
    (hfc' : ∀ z, r.fromCache k.cur z = [])
    (hco : Coherent s.dir { (k.setRole c r).standings with ack := update k.ack x none } k.toDir k.mq) :
    Holds { s.popResponse (.cache x) c true with cache := update s.cache c (r.cacheLine k.cur) }
      { k.setRole c r with ack := update k.ack x none } := by
  have hf := h.fits c
  refine ⟨fun y => ?_, h.toDir, h.memReq, h.memResp, h.mem, hco⟩
  by_cases hy : y = c
  · subst hy
    simp only [Scene.setRole_role_self, Scene.setRole_cur]
    refine ⟨update_self .., hf.request.trans hq.symm, hf.forward.trans hfw.symm, ?_, fun z => ?_⟩
    · exact (s.popResponse_of_ne y (x := .cache x) (y := .directory) (by simp)).trans (hf.fromDir.trans hd.symm)
    · by_cases hz : z = x
      · subst hz
        refine (Line.popResponse_self ..).trans ?_
        rw [hf.fromCache, hfc, hfc']
        simp [ackMsgs, hx, pop]
      · refine (s.popResponse_of_ne y (y := .cache z) (by simpa using hz)).trans ?_
        rw [hf.fromCache, hfc, hfc']
        simp [ackMsgs, hz]
  · simp only [Scene.setRole_role_of_ne k hy, Scene.setRole_cur]
    have hfy := (h.fits y).congr (SameAt.respond hy (.cache x) (r.cacheLine k.cur))
    refine { hfy with fromCache := fun z => (hfy.fromCache z).trans ?_ }
    by_cases hz : z = x
    · subst hz
      simp [ackMsgs, hx, Ne.symm hy]
    · simp [ackMsgs, hz]

omit [Inhabited V] in
theorem Holds.ackArrived (h : Holds s k) {x : C} (hx : k.ack x = some c) (hfc : ∀ z, (k.role c).fromCache k.cur z = []) :
    s.response (.cache x) c = [.invAck] := by
  rw [(h.fits c).fromCache, hfc, ackMsgs, if_pos hx]
  rfl

omit [DecidableEq C] [Inhabited V] in
theorem Role.cacheLine_memM (cur : V) (w : Option V) (got : Nat) :
    (Role.memM (C := C) w got).cacheLine cur = busy (dataState w) (w.getD cur) (-got) := by
  cases w <;> rfl

omit [Inhabited V] in
theorem dataState_invAck (w : Option V) :
    cacheTransition (dataState w) .invAck = some ([.decrAcks, .popResponseQueue], dataState w) := by
  cases w <;> rfl

/-- An acknowledgement that is not the last one is counted. -/
theorem Lands.takeAck (h : Holds s k) {x : C} (hx : k.ack x = some c) {r₀ : Role C V} (hr : k.role c = r₀)
    (r : Role C V) {st : CacheState} {u : V} {out : Int} {q o : Owed} (hl₀ : r₀.cacheLine k.cur = busy st u out)
    (hl : r.cacheLine k.cur = busy st u (out - 1)) (hout : out ≠ 1)
    (hst : cacheTransition st .invAck = some ([.decrAcks, .popResponseQueue], st))
    (hq : r.request k.cur = r₀.request k.cur) (hfw : r.forward = r₀.forward) (hd : r.fromDir k.cur = r₀.fromDir k.cur)
    (hfc : ∀ z, r₀.fromCache k.cur z = []) (hfc' : ∀ z, r.fromCache k.cur z = [])
    (hs : r.standing = { r₀.standing with head := some o }) (ho : r₀.standing.head = some q)
    (ho' : ∀ n, o.amount n = q.amount n - 1) (hm : ∀ n, o = .memory n → ∃ n', q = .memory n') (value : V → V) :
    Lands k.cur (s.step (.response (.cache x) c value)) := by
  subst hr
  have hf := h.fits c
  simp only [Line.step, h.ackArrived hx hfc, hf.cache, hl₀]
  rw [responseIn_invAck _ x value hst hout]
  refine ⟨_, _, { k.setRole c r with ack := update k.ack x none }, rfl, ?_, .inl ⟨rfl, rfl⟩⟩
  have hc := h.takeAck hx hq hfw hd hfc hfc' ?_
  · rw [hl] at hc
    exact hc
  · rw [k.standings_head hs]
    exact h.coherent.takeAck hx ho (.inr ⟨_, rfl, ho' _⟩) fun n e => hm n (Option.some.inj e)

theorem ack_lands (h : Holds s k) {x : C} (hx : k.ack x = some c) (value : V → V) :
    Lands k.cur (s.step (.response (.cache x) c value)) := by
  have hhead : k.standings.head c ≠ none := h.coherent.toHead x c (.inr hx)
  obtain ⟨w, got, hr⟩ | ⟨w, acks, got, fwd, hr⟩ | ⟨sm, n, fwd, hr⟩ := Role.head_cases hhead
  · refine .takeAck h hx hr (.memM w (got + 1)) (o := .memory (got + 1)) (Role.cacheLine_memM ..)
      ((Role.cacheLine_memM ..).trans (by congr 1; omega)) (by omega) (dataState_invAck w) rfl rfl rfl (fun _ => rfl)
      (fun _ => rfl) rfl rfl (fun n => ?_) (fun _ _ => ⟨got, rfl⟩) value
    simp only [Owed.amount]
    omega
  · refine .takeAck h hx hr (.dirM w acks (got + 1) fwd) (o := .number (acks - (got + 1 : Nat)))
      (Role.cacheLine_dirM ..) ((Role.cacheLine_dirM ..).trans (by congr 1; omega)) (by omega) (dataState_invAck w) rfl rfl
      rfl (fun _ => rfl) (fun _ => rfl) rfl rfl (fun n => ?_) (by simp) value
    simp only [Owed.amount]
    omega
  · cases n with
    | zero =>
      have hf := h.fits c
      simp only [Line.step, h.ackArrived hx (fun _ => by rw [hr]; rfl), hf.cache, hr, Role.cacheLine]
      rw [show ((0 : Nat) : Int) + 1 = 1 from rfl, responseIn_lastInvAck]
      refine Lands.store (k := { k with ack := update k.ack x none }) fwd ?_ rfl rfl rfl
      refine h.takeAck (r := .owner fwd) hx (by rw [hr]; rfl) (by rw [hr]; rfl) (by rw [hr]; rfl)
        (fun _ => by rw [hr]; rfl) (fun _ => rfl) ?_
      rw [k.standings_head (o := none) (by rw [hr]; rfl)]
      exact h.coherent.takeAck (o := .number 1) hx (by simp [Scene.standings, hr, Role.standing]) (.inl ⟨rfl, rfl⟩) (by simp)
    | succ n =>
      refine .takeAck h hx hr (.collect sm n fwd) (o := .number (n + 1)) rfl ?_ (by omega) (by cases sm <;> rfl) rfl rfl
        rfl (fun _ => rfl) (fun _ => rfl) rfl rfl (fun m => ?_) (by simp) value
      · rw [Role.cacheLine]
        congr 1
        omega
      · simp only [Owed.amount]
        omega

omit [Inhabited V] in
theorem Role.fromCache_cases (cur : V) (x : C) (r : Role C V) : r.fromCache cur x = [] ∨
    (∃ w inv, r = .dataS w (.cache x) inv) ∨ ∃ w fwd, r = .cacheM w x fwd := by
  cases r with
  | dataS w sender inv =>
    cases sender with
    | directory => exact .inl rfl
    | cache y =>
      by_cases hy : y = x
      · exact .inr (.inl ⟨w, inv, by rw [hy]⟩)
      · exact .inl (if_neg hy)
  | cacheM w y fwd =>
    by_cases hy : y = x
    · exact .inr (.inr ⟨w, fwd, by rw [hy]⟩)
    · exact .inl (if_neg hy)
  | _ => exact .inl rfl

theorem responseC_lands (h : Holds s k) (x c : C) (value : V → V) :
    Lands k.cur (s.step (.response (.cache x) c value)) := by
  by_cases hx : k.ack x = some c
  · exact ack_lands h hx value
  have hf := h.fits c
  have hnone : ackMsgs (V := V) k.ack x c = [] := if_neg hx
  -- the data goes, and what other caches send stays
  have hfrom : ∀ {r r' : Role C V}, r.fromCache k.cur x = [.data k.cur 0] → (∀ z, r'.fromCache k.cur z = []) →
      (∀ z, z ≠ x → r.fromCache k.cur z = []) → Fits s k.cur k.ack c r →
      ∀ z, (s.popResponse (.cache x) c true).response (.cache z) c = ackMsgs k.ack z c ++ r'.fromCache k.cur z := by
    intro r r' hd hn hne hf z
    rw [hn]
    by_cases hz : z = x
    · subst hz
      rw [Line.popResponse_self, hf.fromCache, hnone, hd]
      rfl
    · rw [s.popResponse_of_ne c (y := .cache z) (by simpa using hz), hf.fromCache, hne z hz]
  rcases (k.role c).fromCache_cases k.cur x with hr | ⟨w, inv, hr⟩ | ⟨w, fwd, hr⟩
  · simp only [Line.step, hf.fromCache, hr, hnone, List.append_nil]
    exact .idle h
  · rw [hr] at hf
    have hd : (Role.dataS w (.cache x) inv).fromCache k.cur x = [.data k.cur 0] := if_pos rfl
    simp only [Line.step, hf.fromCache, hnone, hd, List.nil_append, hf.cache, Role.cacheLine, responseIn_read,
      Run.ok_bind, Run.pure_eq_ok]
    refine ⟨_, _, k.setRole c (.shared inv), rfl, ?_, .inr (.inl ⟨⟨c, rfl⟩, rfl⟩)⟩
    refine h.quiet (fun y hy => .respond hy _ _) ?_ ⟨rfl, rfl, rfl, rfl, rfl⟩ (by rw [hr]; rfl)
    exact { hf with
      cache := update_self ..
      fromCache := hfrom hd (fun _ => rfl) (fun z hz => if_neg (Ne.symm hz)) hf }
  · rw [hr] at hf
    have hd : (Role.cacheM w x fwd).fromCache k.cur x = [.data k.cur 0] := if_pos rfl
    have hresp : responseIn (busy .IM_AD w 0) (.cache x) (.data k.cur 0) value =
        .ok { resting .M (value k.cur) with
          inMsg := .response (.data k.cur 0), store := value, log := [.store (value k.cur)], popped := true } := rfl
    simp only [Line.step, hf.fromCache, hnone, hd, List.nil_append, hf.cache, Role.cacheLine, hresp]
    refine Lands.store fwd ?_ rfl rfl rfl
    refine h.quiet (fun y hy => .respond hy _ _) ?_ ⟨rfl, rfl, rfl, rfl, rfl⟩ (by rw [hr]; rfl)
    exact { hf with
      cache := update_self ..
      fromCache := hfrom hd (fun _ => rfl) (fun z hz => if_neg (Ne.symm hz)) hf }

/-! ## Forwarded requests -/

theorem Lands.stalled (h : Holds s k) {m : ForwardMsg C} {rest : List (ForwardMsg C)} (hm : s.forward c = m :: rest)
    (hx : forwardIn (s.cache c) m = .ok x) (hl : x.toCacheLine = (k.role c).cacheLine k.cur) (ho : x.out = [])
    (hlog : x.log = []) (hp : x.popped = false) : Lands k.cur (s.step (.forward c)) := by
  simp only [Line.step, hm, hx, Run.ok_bind, Run.pure_eq_ok, hp, Line.popForward_false]
  exact .stay h hl ho (.inl hlog)

/-- The two roles differ in what the cache holds and what it is to be forwarded, at most. -/
structure Role.Alike (cur : V) (r r' : Role C V) : Prop where
  request : r'.request cur = r.request cur
  fromDir : r'.fromDir cur = r.fromDir cur
  fromCache : ∀ z, r'.fromCache cur z = r.fromCache cur z

theorem Lands.putAcked (h : Holds s k) (hr : k.role c = r) (hfw : r.forward = [.putAck])
    (hx : forwardIn (r.cacheLine k.cur) .putAck = .ok x) (hl : x.toCacheLine = {}) (ho : x.out = []) (hlog : x.log = [])
    (hp : x.popped = true) (hst : r.standing = {}) (ha : r.Alike k.cur .idle) : Lands k.cur (s.step (.forward c)) := by
  subst hr
  have hf := h.fits c
  simp only [Line.step, hf.forward, hfw, hf.cache, hx, Run.ok_bind, Run.pure_eq_ok, hp, hlog]
  refine ⟨_, _, k.setRole c .idle, rfl, ?_, .inl ⟨rfl, rfl⟩⟩
  have hs : (s.popForward c true).afterCache c x =
      { s.popForward c true with cache := update s.cache c {} } := by
    rw [Line.afterCache, ho, hl]
    rfl
  rw [hs]
  refine h.quiet (fun y hy => (SameAt.popForward hy true).trans ⟨by simp [hy, Line.popForward], rfl, rfl, fun _ => rfl⟩)
    ?_ ⟨rfl, rfl, rfl, rfl, rfl⟩ (by rw [hst]; rfl)
  refine ⟨update_self .., hf.request.trans ha.request.symm, ?_, hf.fromDir.trans ha.fromDir.symm, fun z => ?_⟩
  · refine (update_self ..).trans ?_
    rw [hf.forward, hfw]
    rfl
  · exact (hf.fromCache z).trans (by rw [ha.fromCache z])

theorem Lands.sendAck (h : Holds s k) {r₀ : Role C V} (hr : k.role c = r₀) (r : Role C V) {hd : C}
    (hfw : r₀.forward = .inv hd :: r.forward) (hx : forwardIn (r₀.cacheLine k.cur) (.inv hd) = .ok x)
    (hl : x.toCacheLine = r.cacheLine k.cur) (ho : x.out = [.response hd .invAck]) (hlog : x.log = [])
    (hp : x.popped = true) (hinv : r₀.standing.inv = some hd) (hst : r.standing = { r₀.standing with inv := none })
    (ha : r₀.Alike k.cur r) : Lands k.cur (s.step (.forward c)) := by
  subst hr
  have hf := h.fits c
  have hhead : k.standings.head hd ≠ none := h.coherent.toHead c hd (.inl hinv)
  have hinv' : k.standings.inv c ≠ none := by
    rw [show k.standings.inv c = some hd from hinv]
    simp
  have hne : hd ≠ c := by
    rintro rfl
    exact h.coherent.inv_token hd hinv' (h.coherent.head_token hd hhead)
  have hack : k.ack c = none := h.coherent.exclusive c hinv'
  have hacks : ∀ z y, y ≠ hd → ackMsgs (V := V) (update k.ack c (some hd)) z y = ackMsgs k.ack z y := by
    intro z y hy
    by_cases hz : z = c
    · subst hz
      simp [ackMsgs, hack, Ne.symm hy]
    · simp [ackMsgs, hz]
  simp only [Line.step, hf.forward, hfw, hf.cache, hx, Run.ok_bind, Run.pure_eq_ok, hp, hlog]
  refine ⟨_, _, { k.setRole c r with ack := update k.ack c (some hd) }, rfl, ?_, .inl ⟨rfl, rfl⟩⟩
  have hs : (s.popForward c true).afterCache c x =
      { s.popForward c true with
        cache := update s.cache c (r.cacheLine k.cur)
        response := fun z y =>
          if z = .cache c ∧ y = hd then s.response z y ++ [.invAck] else s.response z y } := by
    rw [Line.afterCache, ho, hl]
    rfl
  rw [hs]
  refine ⟨fun y => ?_, h.toDir, h.memReq, h.memResp, h.mem, ?_⟩
  · by_cases hy : y = c
    · subst hy
      simp only [Scene.setRole_role_self, Scene.setRole_cur]
      refine ⟨update_self .., hf.request.trans ha.request.symm, ?_, ?_, fun z => ?_⟩
      · refine (update_self ..).trans ?_
        rw [hf.forward, hfw]
        rfl
      · exact hf.fromDir.trans ha.fromDir.symm
      · rw [hacks z y hne.symm, ha.fromCache z, ← hf.fromCache z]
        exact if_neg fun e => hne e.2.symm
    · simp only [Scene.setRole_role_of_ne k hy, Scene.setRole_cur]
      have hfy := h.fits y
      refine ⟨?_, hfy.request, ?_, ?_, fun z => ?_⟩
      · exact (update_of_ne hy ..).trans hfy.cache
      · exact (update_of_ne hy ..).trans hfy.forward
      · exact hfy.fromDir
      · by_cases hyd : y = hd
        · subst hyd
          have hnil : ∀ z, (k.role y).fromCache k.cur z = [] := by
            obtain ⟨w, got, hr⟩ | ⟨w, acks, got, fwd, hr⟩ | ⟨sm, n, fwd, hr⟩ := Role.head_cases hhead <;> simp [hr, Role.fromCache]
          by_cases hz : z = c
          · subst hz
            refine (if_pos ⟨rfl, rfl⟩).trans ?_
            rw [hfy.fromCache, hnil]
            simp [ackMsgs, hack]
          · refine (if_neg fun e => hz (by simpa using e.1)).trans ?_
            rw [hfy.fromCache, hnil]
            simp [ackMsgs, hz]
        · rw [hacks z y hyd, ← hfy.fromCache z]
          exact if_neg fun e => hyd e.2
  · have := h.coherent.ackInv hinv
    rwa [← k.standings_inv hst] at this

omit [Inhabited V] in
theorem Role.receive (cur : V) (hs : r.standing.source = some c) (hi : r.standing.inv = none) :
    ∃ r' : Role C V, r'.standing = { r.standing with source := none } ∧ r'.cacheLine cur = r.cacheLine cur ∧
      r'.request cur = r.request cur ∧ r'.forward = r.forward ∧ r'.fromDir cur = r.fromDir cur ∧
      (∀ z, r.fromCache cur z = []) ∧ ∀ z, r'.fromCache cur z = if c = z then [.data cur 0] else [] := by
  cases r with
  | fwdS w x =>
    obtain rfl : x = c := by simpa [Role.standing] using hs
    exact ⟨.dataS w (.cache x) none, rfl, rfl, rfl, rfl, rfl, fun _ => rfl, fun _ => rfl⟩
  | waitM w x fwd =>
    cases w with
    | inl w =>
      obtain rfl : x = c := by simpa [Role.standing] using hs
      exact ⟨.cacheM w x fwd, rfl, rfl, rfl, rfl, rfl, fun _ => rfl, fun _ => rfl⟩
    | inr y => simp [Role.standing] at hi
  | _ => simp [Role.standing] at hs

structure Passes (k : Scene C V) (c : C) (kind : Kind) (n : C) (r : Role C V) : Prop where
  forward : (k.role c).forward = fwdMsg kind n :: r.forward
  fwd : (k.role c).standing.fwd = some (kind, n)
  chained : (k.role c).standing.chained = true
  source : (k.role c).standing.source = none
  head : (k.role c).standing.head = none
  mem : (k.role c).standing.mem = false
  standing : r.standing = { (k.role c).standing with chained := false, fwd := none }
  alike : (k.role c).Alike k.cur r

omit [Inhabited V] in
theorem Passes.of {r₀ : Role C V} (hr : k.role c = r₀) {kind : Kind} (r : Role C V) {sharer : Bool}
    (hfw : r₀.forward = fwdMsg kind n :: r.forward)
    (hst : r₀.standing = { chained := true, fwd := some (kind, n), sharer })
    (hst' : r.standing = { r₀.standing with chained := false, fwd := none }) (ha : r₀.Alike k.cur r) :
    Passes k c kind n r := by
  subst hr
  refine ⟨hfw, ?_, ?_, ?_, ?_, ?_, hst', ha⟩ <;> rw [hst]

/-- The line after a cache has passed it on, but for what the directory is sent. -/
def Line.passed (s : Line C V) (c n : C) (cur : V) (l : CacheLine V) : Line C V :=
  { s.popForward c true with
    cache := Function.update s.cache c l
    response := fun z y => if z = .cache c ∧ y = n then s.response z y ++ [.data cur 0] else s.response z y }

omit [Inhabited V] in
theorem Passes.fits {kind : Kind} (hp : Passes k c kind n r) (h : Holds s k) :
    ∃ r', n ≠ c ∧ ((k.setRole c r).setRole n r').standings = Coherent.passed k.standings c n ∧
      ∀ y, Fits (s.passed c n k.cur (r.cacheLine k.cur)) k.cur k.ack y (((k.setRole c r).setRole n r').role y) := by
  have hx : k.standings.token c := ⟨hp.chained, hp.source⟩
  have hsrc : k.standings.source n = some c := (h.coherent.source c n).2 ⟨kind, hp.fwd⟩
  have hnc : n ≠ c := by
    rintro rfl
    have := hp.source
    rw [show (k.role n).standing.source = some n from hsrc] at this
    cases this
  have hquiet := h.coherent.quiet_of_token hx hp.head
  obtain ⟨r', hst, hl, hq, hfw, hd, hnil, hdata⟩ := Role.receive k.cur hsrc (hquiet n).1
  refine ⟨r', hnc, k.standings_pass hnc hp.standing hst, fun y => ?_⟩
  have hfy := h.fits y
  by_cases hyn : y = n
  · subst hyn
    rw [Scene.setRole_role_self]
    refine ⟨?_, hfy.request.trans hq.symm, ?_, hfy.fromDir.trans hd.symm, fun z => ?_⟩
    · exact (update_of_ne hnc ..).trans (hfy.cache.trans hl.symm)
    · exact (update_of_ne hnc ..).trans (hfy.forward.trans hfw.symm)
    · rw [hdata]
      by_cases hz : c = z
      · subst hz
        refine (if_pos ⟨rfl, rfl⟩).trans ?_
        rw [hfy.fromCache, hnil, if_pos rfl, List.append_nil]
      · refine (if_neg fun e => hz (by simpa using e.1.symm)).trans ?_
        rw [hfy.fromCache, hnil, if_neg hz]
  rw [Scene.setRole_role_of_ne _ hyn]
  by_cases hyc : y = c
  · subst hyc
    rw [Scene.setRole_role_self]
    refine ⟨update_self .., hfy.request.trans hp.alike.request.symm, ?_,
      hfy.fromDir.trans hp.alike.fromDir.symm, fun z => ?_⟩
    · refine (update_self ..).trans ?_
      rw [hfy.forward, hp.forward]
      rfl
    · rw [hp.alike.fromCache, ← hfy.fromCache]
      exact if_neg fun e => hyn e.2
  · rw [Scene.setRole_role_of_ne _ hyc]
    refine ⟨?_, hfy.request, ?_, hfy.fromDir, fun z => ?_⟩
    · exact (update_of_ne hyc ..).trans hfy.cache
    · exact (update_of_ne hyc ..).trans hfy.forward
    · rw [← hfy.fromCache]
      exact if_neg fun e => hyn e.2

/-- **A cache passes the line on to a writer.** -/
theorem Passes.landsM (hp : Passes k c .getM n r) (h : Holds s k)
    (hx : forwardIn ((k.role c).cacheLine k.cur) (.getM n) = .ok x) (hl : x.toCacheLine = r.cacheLine k.cur)
    (ho : x.out = [.response n (.data k.cur 0)]) (hlog : x.log = []) (hpop : x.popped = true) :
    Lands k.cur (s.step (.forward c)) := by
  obtain ⟨r', hnc, hst, hfits⟩ := hp.fits h
  simp only [Line.step, (h.fits c).forward, hp.forward, fwdMsg, (h.fits c).cache, hx, Run.ok_bind, Run.pure_eq_ok, hpop,
    hlog]
  refine ⟨_, _, (k.setRole c r).setRole n r', rfl, ?_, .inl ⟨rfl, rfl⟩⟩
  have hs : (s.popForward c true).afterCache c x = s.passed c n k.cur (r.cacheLine k.cur) := by
    rw [Line.afterCache, ho, hl]
    rfl
  rw [hs]
  refine ⟨hfits, h.toDir, h.memReq, h.memResp, h.mem, ?_⟩
  rw [hst]
  exact h.coherent.passM ⟨hp.chained, hp.source⟩ hp.head hp.fwd hp.mem

/-- **A cache passes the line on to a reader**, and its data to the directory. -/
theorem Passes.landsS (hp : Passes k c .getS n r) (h : Holds s k)
    (hx : forwardIn ((k.role c).cacheLine k.cur) (.getS n) = .ok x) (hl : x.toCacheLine = r.cacheLine k.cur)
    (ho : x.out = [.response n (.data k.cur 0), .toDirectory k.cur]) (hlog : x.log = []) (hpop : x.popped = true) :
    Lands k.cur (s.step (.forward c)) := by
  obtain ⟨r', hnc, hst, hfits⟩ := hp.fits h
  have htd : k.toDir = none := (h.coherent.fwdGetS c n hp.fwd).2
  simp only [Line.step, (h.fits c).forward, hp.forward, fwdMsg, (h.fits c).cache, hx, Run.ok_bind, Run.pure_eq_ok, hpop,
    hlog]
  refine ⟨_, _, { (k.setRole c r).setRole n r' with toDir := some c }, rfl, ?_, .inl ⟨rfl, rfl⟩⟩
  have hs : (s.popForward c true).afterCache c x =
      { s.passed c n k.cur (r.cacheLine k.cur) with toDir := update s.toDir c (s.toDir c ++ [k.cur]) } := by
    rw [Line.afterCache, ho, hl]
    rfl
  rw [hs]
  refine ⟨fun y => { hfits y with }, fun y => ?_, h.memReq, h.memResp, h.mem, ?_⟩
  · by_cases hy : y = c
    · subst hy
      refine (update_self ..).trans ?_
      rw [h.toDir, htd]
      simp
    · refine (update_of_ne hy ..).trans ?_
      rw [h.toDir, htd]
      simp [Ne.symm hy]
  · rw [show Scene.standings { (k.setRole c r).setRole n r' with toDir := some c } = _ from hst]
    exact h.coherent.passS ⟨hp.chained, hp.source⟩ hp.head hp.fwd hp.mem

/-- **A forwarded request, an invalidation or an acknowledgement from the directory.** -/
theorem forward_lands (h : Holds s k) (c : C) : Lands k.cur (s.step (.forward c)) := by
  have hf := h.fits c
  have hnil : ∀ {r}, k.role c = r → r.forward = [] → Lands k.cur (s.step (.forward c)) := by
    rintro _ rfl hn
    simp only [Line.step, hf.forward, hn]
    exact .idle h
  have hstall : ∀ {r m} {x : CacheContext C V}, k.role c = r → r.forward = [m] →
      forwardIn (r.cacheLine k.cur) m = .ok x → x.toCacheLine = r.cacheLine k.cur →
      x.out = [] → x.log = [] → x.popped = false → Lands k.cur (s.step (.forward c)) := by
    rintro _ m x rfl hfw hx hl ho hlog hp
    exact .stalled h (hf.forward.trans hfw) (by rw [hf.cache, hx]) hl ho hlog hp
  cases hr : k.role c with
  | dataS w sender inv =>
    cases inv with
    | none => exact hnil hr rfl
    | some hd => exact hstall hr rfl rfl rfl rfl rfl rfl
  | shared inv =>
    cases inv with
    | none => exact hnil hr rfl
    | some hd => exact .sendAck h hr .idle rfl rfl rfl rfl rfl rfl rfl rfl ⟨rfl, rfl, fun _ => rfl⟩
  | upgrade inv =>
    cases inv with
    | none => exact hnil hr rfl
    | some hd => exact .sendAck h hr (.askM k.cur) rfl rfl rfl rfl rfl rfl rfl rfl ⟨rfl, rfl, fun _ => rfl⟩
  | putS w m inv =>
    cases inv with
    | none => exact hnil hr rfl
    | some hd => exact .sendAck h hr (.gone w m) rfl rfl rfl rfl rfl rfl rfl rfl ⟨rfl, rfl, fun _ => rfl⟩
  | putSAcked w inv =>
    cases inv with
    | none => exact .putAcked h hr rfl rfl rfl rfl rfl rfl rfl ⟨rfl, rfl, fun _ => rfl⟩
    | some hd => exact .sendAck h hr (.goneAcked w) rfl rfl rfl rfl rfl rfl rfl rfl ⟨rfl, rfl, fun _ => rfl⟩
  | waitM w x fwd =>
    cases w with
    | inl w =>
      rcases fwd with _ | ⟨kind, n⟩
      · exact hnil hr rfl
      · cases kind <;> exact hstall hr rfl rfl rfl rfl rfl rfl
    | inr hd => exact .sendAck h hr (.waitM (.inl k.cur) x fwd) rfl rfl rfl rfl rfl rfl rfl rfl ⟨rfl, rfl, fun _ => rfl⟩
  | dirM w acks got fwd =>
    rcases fwd with _ | ⟨kind, n⟩
    · exact hnil hr rfl
    · cases kind <;> cases w <;> exact hstall hr rfl rfl rfl rfl rfl rfl
  | cacheM w x fwd =>
    rcases fwd with _ | ⟨kind, n⟩
    · exact hnil hr rfl
    · cases kind <;> exact hstall hr rfl rfl rfl rfl rfl rfl
  | collect sm m fwd =>
    rcases fwd with _ | ⟨kind, n⟩
    · exact hnil hr rfl
    · cases kind <;> cases sm <;> exact hstall hr rfl rfl rfl rfl rfl rfl
  | owner fwd =>
    rcases fwd with _ | ⟨_ | _, n⟩
    · exact hnil hr rfl
    · exact (Passes.of hr (.shared none) rfl rfl rfl ⟨rfl, rfl, fun _ => rfl⟩).landsS h
        (by rw [hr]; rfl) rfl rfl rfl rfl
    · exact (Passes.of hr .idle rfl rfl rfl ⟨rfl, rfl, fun _ => rfl⟩).landsM h (by rw [hr]; rfl) rfl rfl rfl rfl
  | putM fwd =>
    rcases fwd with _ | ⟨_ | _, n⟩
    · exact hnil hr rfl
    · exact (Passes.of hr (.putS k.cur (some k.cur) none) rfl rfl rfl ⟨rfl, rfl, fun _ => rfl⟩).landsS h
        (by rw [hr]; rfl) rfl rfl rfl rfl
    · exact (Passes.of hr (.gone k.cur (some k.cur)) rfl rfl rfl ⟨rfl, rfl, fun _ => rfl⟩).landsM h
        (by rw [hr]; rfl) rfl rfl rfl rfl
  | putMFwd kind n =>
    cases kind with
    | getS =>
      exact (Passes.of hr (.putSAcked k.cur none) rfl rfl rfl ⟨rfl, rfl, fun _ => rfl⟩).landsS h
        (by rw [hr]; rfl) rfl rfl rfl rfl
    | getM =>
      exact (Passes.of hr (.goneAcked k.cur) rfl rfl rfl ⟨rfl, rfl, fun _ => rfl⟩).landsM h
        (by rw [hr]; rfl) rfl rfl rfl rfl
  | putMDone w | goneAcked w =>
    exact .putAcked h hr rfl rfl rfl rfl rfl rfl rfl ⟨rfl, rfl, fun _ => rfl⟩
  | _ => exact hnil hr rfl

end Gem5.Msi
