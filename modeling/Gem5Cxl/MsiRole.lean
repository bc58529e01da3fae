import Gem5Cxl.MsiProtocol
import Gem5Cxl.MsiSystem
/-!
# MsiRole — what a cache is doing with a line

A role says where a cache is in the protocol, its messages under way included: the role `dataS` is a cache in `IS_D`
whose data has been sent.  It fixes what the cache holds, the messages from it to the directory and the messages to it.
Where a copy must be the line's present value the role does not name it.

A `Scene` gives each cache its role; `Holds` says that a line is as a scene has it, and that the scene is coherent.
-/
namespace Gem5.Msi

open Function (update update_eq_self)

variable {C V : Type}

/-- What a cache is doing.  `w` is a block's content that nothing reads. -/
inductive Role (C V : Type) where
  | idle
  /-- It has asked to read; memory reads; another cache is to send the data; the data is under way. -/
  | askS (w : V)
  | memS (w : V)
  | fwdS (w : V) (x : C)
  | dataS (w : V) (sender : Sender C) (inv : Option C)
  | shared (inv : Option C)
  /-- It has a copy and has asked to write. -/
  | upgrade (inv : Option C)
  /-- It gives a copy back with a `PutS`, or with the `PutM` it sent as the owner. -/
  | putS (w : V) (m : Option V) (inv : Option C)
  | putSAcked (w : V) (inv : Option C)
  | askM (w : V)
  /-- Another cache is to send the line; a copy it has until then it is to invalidate. -/
  | waitM (w : V ⊕ C) (x : C) (fwd : Option (Kind × C))
  /-- Memory reads, or the directory has sent the data; `got` acknowledgements came first. -/
  | memM (w : Option V) (got : Nat)
  | dirM (w : Option V) (acks : Int) (got : Nat) (fwd : Option (Kind × C))
  | cacheM (w : V) (x : C) (fwd : Option (Kind × C))
  /-- It has the data, and `n + 1` acknowledgements to come. -/
  | collect (sm : Bool) (n : Nat) (fwd : Option (Kind × C))
  | owner (fwd : Option (Kind × C))
  /-- It gives the line back; the directory has acknowledged it as a cache that no longer owns the line, or as the owner. -/
  | putM (fwd : Option (Kind × C))
  | putMFwd (kind : Kind) (n : C)
  | putMDone (w : V)
  /-- It has nothing more of the line than the `Put` under way. -/
  | gone (w : V) (m : Option V)
  | goneAcked (w : V)

/-! ## What a role fixes -/

def resting (s : CacheState) (v : V) : CacheLine V := { cacheEntry := some ⟨s, v⟩ }

def busy (s : CacheState) (v : V) (acks : Int) : CacheLine V :=
  { cacheEntry := some ⟨s, v⟩, tbe := some ⟨s, acks⟩ }

def fwdMsg : Kind → C → ForwardMsg C
  | .getS, n => .getS n
  | .getM, n => .getM n

def fwdMsgs : Option (Kind × C) → List (ForwardMsg C)
  | none => []
  | some (kind, n) => [fwdMsg kind n]

def invMsgs : Option C → List (ForwardMsg C)
  | none => []
  | some h => [.inv h]

def putMsg : Option V → RequestMsg V
  | none => .putS
  | some v => .putM v

namespace Role

def cacheLine (cur : V) : Role C V → CacheLine V
  | idle => {}
  | askS w | memS w | fwdS w _ | dataS w _ _ => busy .IS_D w 0
  | shared _ => resting .S cur
  | upgrade _ => busy .SM_AD cur 0
  | putS w _ _ | putSAcked w _ => resting .SI_A w
  | askM w | waitM (.inl w) _ _ | cacheM w _ _ => busy .IM_AD w 0
  | waitM (.inr _) _ _ => busy .SM_AD cur 0
  | memM (some w) got | dirM (some w) _ got _ => busy .IM_AD w (-got)
  | memM none got | dirM none _ got _ => busy .SM_AD cur (-got)
  | collect sm n _ => busy (if sm then .SM_A else .IM_A) cur (n + 1)
  | owner _ => resting .M cur
  | putM _ | putMFwd _ _ => resting .MI_A cur
  | putMDone w => resting .MI_A w
  | gone w _ | goneAcked w => resting .II_A w

def request (cur : V) : Role C V → List (RequestMsg V)
  | askS _ => [.getS]
  | upgrade _ | askM _ => [.getM]
  | putS _ m _ | gone _ m => [putMsg m]
  | putM _ => [.putM cur]
  | _ => []

def forward : Role C V → List (ForwardMsg C)
  | dataS _ _ inv | shared inv | upgrade inv | putS _ _ inv => invMsgs inv
  | putSAcked _ inv => invMsgs inv ++ [.putAck]
  | waitM (.inl _) _ fwd | dirM _ _ _ fwd | cacheM _ _ fwd | collect _ _ fwd | owner fwd | putM fwd => fwdMsgs fwd
  | waitM (.inr h) _ fwd => .inv h :: fwdMsgs fwd
  | putMFwd kind n => [fwdMsg kind n, .putAck]
  | putMDone _ | goneAcked _ => [.putAck]
  | _ => []

def fromDir (cur : V) : Role C V → List (ResponseMsg V)
  | dataS _ .directory _ => [.data cur 0]
  | dirM _ acks _ _ => [.data cur acks]
  | _ => []

def fromCache [DecidableEq C] (cur : V) (x : C) : Role C V → List (ResponseMsg V)
  | dataS _ (.cache y) _ | cacheM _ y _ => if y = x then [.data cur 0] else []
  | _ => []

end Role

structure Standing (C : Type) where
  sharer : Bool := false
  chained : Bool := false
  head : Option Owed := none
  source : Option C := none
  fwd : Option (Kind × C) := none
  inv : Option C := none
  mem : Bool := false

def isGetS : Option (Kind × C) → Bool
  | some (.getS, _) => true
  | _ => false

def Role.standing : Role C V → Standing C
  | idle | askS _ | askM _ | putMDone _ | gone _ _ | goneAcked _ => {}
  | memS _ => { sharer := true, mem := true }
  | fwdS _ x => { sharer := true, source := some x }
  | dataS _ _ inv | shared inv | upgrade inv | putS _ _ inv => { sharer := inv.isNone, inv }
  | putSAcked _ inv => { inv }
  | waitM (.inl _) x fwd => { chained := true, source := some x, fwd, sharer := isGetS fwd }
  | waitM (.inr h) x fwd => { chained := true, source := some x, fwd, sharer := isGetS fwd, inv := some h }
  | memM _ got => { chained := true, head := some (.memory got), mem := true }
  | dirM _ acks got fwd => { chained := true, head := some (.number (acks - got)), fwd, sharer := isGetS fwd }
  | collect _ n fwd => { chained := true, head := some (.number (n + 1)), fwd, sharer := isGetS fwd }
  | cacheM _ _ fwd | owner fwd | putM fwd => { chained := true, fwd, sharer := isGetS fwd }
  | putMFwd kind n => { chained := true, fwd := some (kind, n) }

def Standings.set [DecidableEq C] (t : Standings C) (c : C) (st : Standing C) : Standings C where
  sharer := Function.update t.sharer c st.sharer
  chained := Function.update t.chained c st.chained
  head := Function.update t.head c st.head
  source := Function.update t.source c st.source
  fwd := Function.update t.fwd c st.fwd
  inv := Function.update t.inv c st.inv
  ack := t.ack
  mem := Function.update t.mem c st.mem

def Standings.at (t : Standings C) (c : C) : Standing C where
  sharer := t.sharer c
  chained := t.chained c
  head := t.head c
  source := t.source c
  fwd := t.fwd c
  inv := t.inv c
  mem := t.mem c

def MemQueue.requests (cur : V) : MemQueue C → List (MemoryReq C V)
  | read r => [.read r]
  | write => [.write cur]
  | _ => []

def MemQueue.responses (cur : V) : MemQueue C → List (MemoryResp C V)
  | data r => [.data r cur]
  | ack => [.ack]
  | _ => []

/-! ## A line as a scene has it -/

/-- The caches' roles, the acknowledgements under way, the cache that sends its data to the directory, the directory's
request to memory, and the line's present value. -/
structure Scene (C V : Type) where
  role : C → Role C V
  ack : C → Option C
  toDir : Option C
  mq : MemQueue C
  cur : V

namespace Scene

def standings (k : Scene C V) : Standings C where
  sharer c := (k.role c).standing.sharer
  chained c := (k.role c).standing.chained
  head c := (k.role c).standing.head
  source c := (k.role c).standing.source
  fwd c := (k.role c).standing.fwd
  inv c := (k.role c).standing.inv
  ack := k.ack
  mem c := (k.role c).standing.mem

theorem standings_eq (k : Scene C V) {role : C → Role C V} {t : Standings C} (h : ∀ y, (role y).standing = t.at y)
    (hack : t.ack = k.ack) : Scene.standings { k with role } = t := by
  refine Standings.ext ?_ ?_ ?_ ?_ ?_ ?_ hack.symm ?_ <;> funext y <;> simp [standings, h y, Standings.at]

variable [DecidableEq C]

def setRole (k : Scene C V) (c : C) (r : Role C V) : Scene C V := { k with role := Function.update k.role c r }

@[simp] theorem setRole_cur (k : Scene C V) (c : C) (r : Role C V) : (k.setRole c r).cur = k.cur := rfl

@[simp] theorem setRole_role_self (k : Scene C V) (c : C) (r : Role C V) : (k.setRole c r).role c = r := by
  simp [setRole]

variable {c : C} {r : Role C V} {o : Option Owed} {b : Bool}

section

variable (k : Scene C V)

theorem setRole_role_of_ne {y : C} (h : y ≠ c) (r : Role C V) : (k.setRole c r).role y = k.role y := by
  simp [setRole, h]

theorem standings_setRole (c : C) (r : Role C V) :
    (k.setRole c r).standings = k.standings.set c r.standing := by
  have hup : ∀ {α : Type} (f : Role C V → α),
      (fun y => f (update k.role c r y)) = update (fun y => f (k.role y)) c (f r) := by
    intro α f
    funext y
    by_cases hy : y = c
    · subst hy
      simp
    · simp [hy]
  exact Standings.ext (hup (·.standing.sharer)) (hup (·.standing.chained)) (hup (·.standing.head))
    (hup (·.standing.source)) (hup (·.standing.fwd)) (hup (·.standing.inv)) rfl (hup (·.standing.mem))

theorem standings_quiet (h : r.standing = (k.role c).standing) :
    (k.setRole c r).standings = k.standings := by
  rw [standings_setRole, h]
  refine Standings.ext ?_ ?_ ?_ ?_ ?_ ?_ rfl ?_ <;> exact update_eq_self c _

theorem standings_head (h : r.standing = { (k.role c).standing with head := o }) :
    (k.setRole c r).standings = { k.standings with head := update k.standings.head c o } := by
  rw [standings_setRole, h]
  refine Standings.ext ?_ ?_ rfl ?_ ?_ ?_ rfl ?_ <;> exact update_eq_self c _

theorem standings_mem (h : r.standing = { (k.role c).standing with mem := b }) :
    (k.setRole c r).standings = { k.standings with mem := update k.standings.mem c b } := by
  rw [standings_setRole, h]
  refine Standings.ext ?_ ?_ ?_ ?_ ?_ ?_ rfl rfl <;> exact update_eq_self c _

theorem standings_mem_head (h : r.standing = { (k.role c).standing with mem := b, head := o }) :
    (k.setRole c r).standings =
      { k.standings with
        mem := update k.standings.mem c b, head := update k.standings.head c o } := by
  rw [standings_setRole, h]
  refine Standings.ext ?_ ?_ rfl ?_ ?_ ?_ rfl rfl <;> exact update_eq_self c _

theorem standings_inv {x : Option C} {ack : C → Option C}
    (h : r.standing = { (k.role c).standing with inv := x }) : Scene.standings { k.setRole c r with ack } =
      { k.standings with inv := update k.standings.inv c x, ack } := by
  have hk : Scene.standings { k.setRole c r with ack } = { (k.setRole c r).standings with ack } := rfl
  rw [hk, standings_setRole, h]
  refine Standings.ext ?_ ?_ ?_ ?_ ?_ rfl rfl ?_ <;> exact update_eq_self c _

theorem standings_pass {n : C} {r' : Role C V} (hn : n ≠ c)
    (h : r.standing = { (k.role c).standing with chained := false, fwd := none })
    (h' : r'.standing = { (k.role n).standing with source := none }) :
    ((k.setRole c r).setRole n r').standings = Coherent.passed k.standings c n := by
  have hkeep : ∀ {α : Type} (f : C → α) (v : α), update (update f c v) n (f n) = update f c v := by
    intro α f v
    rw [Function.update_eq_self_iff, Function.update_of_ne hn]
  have hself : ∀ {α : Type} (f : C → α), update (update f c (f c)) n (f n) = f := by
    intro α f
    rw [update_eq_self, update_eq_self]
  rw [standings_setRole, standings_setRole, h, h']
  refine Standings.ext (hself k.standings.sharer) (hkeep k.standings.chained false) (hself k.standings.head) ?_
    (hkeep k.standings.fwd none) (hself k.standings.inv) rfl (hself k.standings.mem)
  exact congrArg (update · n none) (update_eq_self c k.standings.source)

end

end Scene

def ackMsgs [DecidableEq C] (ack : C → Option C) (x c : C) : List (ResponseMsg V) :=
  if ack x = some c then [.invAck] else []

variable [DecidableEq C]

/-- At cache `c`, the line is as a cache of role `r` has it. -/
structure Fits (s : Line C V) (cur : V) (ack : C → Option C) (c : C) (r : Role C V) : Prop where
  cache : s.cache c = r.cacheLine cur
  request : s.request c = r.request cur
  forward : s.forward c = r.forward
  fromDir : s.response .directory c = r.fromDir cur
  fromCache : ∀ x, s.response (.cache x) c = ackMsgs ack x c ++ r.fromCache cur x

def MemCurrent (d : DirState) (mq : MemQueue C) : Prop :=
  d = .I ∨ d = .S ∨ d = .S_m ∨ d = .M_m ∨ mq = .ack

/-- **The line is as the scene has it, and the scene is coherent.** -/
structure Holds (s : Line C V) (k : Scene C V) : Prop where
  fits : ∀ c, Fits s k.cur k.ack c (k.role c)
  toDir : ∀ c, s.toDir c = if k.toDir = some c then [k.cur] else []
  memReq : s.memReq = k.mq.requests k.cur
  memResp : s.memResp = k.mq.responses k.cur
  mem : MemCurrent s.dir.dirState k.mq → s.mem = k.cur
  coherent : Coherent s.dir k.standings k.toDir k.mq

/-- What the callbacks of a step say of the line's value before and after. -/
def Explains (cur : V) (log : List (C × Callback V)) (cur' : V) : Prop :=
  log = [] ∧ cur' = cur ∨ (∃ c, log = [(c, .load cur)]) ∧ cur' = cur ∨ ∃ c, log = [(c, .store cur')]

/-- **The step returns, and leaves the line as some scene has it.** -/
def Lands (cur : V) (r : Except Failure (Line C V × List (C × Callback V))) : Prop :=
  ∃ s log k, r = .ok (s, log) ∧ Holds s k ∧ Explains cur log k.cur

/-! ## Frames -/

structure SameAt (s s' : Line C V) (y : C) : Prop where
  cache : s'.cache y = s.cache y
  request : s'.request y = s.request y
  forward : s'.forward y = s.forward y
  response : ∀ x, s'.response x y = s.response x y

namespace SameAt

variable {s s₁ s₂ : Line C V} {c y : C}

omit [DecidableEq C] in
theorem refl (s : Line C V) (y : C) : SameAt s s y := ⟨rfl, rfl, rfl, fun _ => rfl⟩

omit [DecidableEq C] in
theorem trans (h₁ : SameAt s s₁ y) (h₂ : SameAt s₁ s₂ y) : SameAt s s₂ y :=
  ⟨h₂.cache.trans h₁.cache, h₂.request.trans h₁.request, h₂.forward.trans h₁.forward,
    fun x => (h₂.response x).trans (h₁.response x)⟩

theorem send (hy : y ≠ c) (o : CacheOut C V) (ho : ∀ n m, o = .response n m → n ≠ y) : SameAt s (s.send c o) y := by
  cases o with
  | request m => exact ⟨rfl, by simp [Line.send, hy], rfl, fun _ => rfl⟩
  | response n m =>
    have hn : y ≠ n := (ho n m rfl).symm
    exact ⟨rfl, rfl, rfl, fun x => by simp [Line.send, hn]⟩
  | toDirectory v => exact ⟨rfl, rfl, rfl, fun _ => rfl⟩

theorem sends (hy : y ≠ c) : ∀ (out : List (CacheOut C V)) (s : Line C V),
    (∀ n m, CacheOut.response n m ∈ out → n ≠ y) → SameAt s (out.foldl (Line.send c) s) y
  | [], s, _ => refl s y
  | o :: out, s, ho =>
    (send hy o fun n m e => ho n m (by simp [e])).trans
      (sends hy out _ fun n m hm => ho n m (List.mem_cons_of_mem _ hm))

/-- **A transition of a cache** leaves another cache that it sends nothing. -/
theorem afterCache (hy : y ≠ c) {x : CacheContext C V} (ho : ∀ n m, CacheOut.response n m ∈ x.out → n ≠ y) :
    SameAt s (s.afterCache c x) y := by
  have hcache : SameAt s { s with cache := update s.cache c x.toCacheLine } y :=
    ⟨by simp [hy], rfl, rfl, fun _ => rfl⟩
  exact hcache.trans (sends hy x.out _ ho)

theorem popForward (hy : y ≠ c) (p : Bool) : SameAt s (s.popForward c p) y :=
  ⟨rfl, rfl, by simp [Line.popForward, hy], fun _ => rfl⟩

theorem popResponse (hy : y ≠ c) (sender : Sender C) (p : Bool) : SameAt s (s.popResponse sender c p) y :=
  ⟨rfl, rfl, rfl, fun x => by simp [Line.popResponse, hy]⟩

end SameAt

theorem Fits.congr {s s' : Line C V} {cur : V} {ack : C → Option C} {c : C} {r : Role C V} (h : Fits s cur ack c r)
    (hs : SameAt s s' c) : Fits s' cur ack c r :=
  ⟨hs.cache.trans h.cache, hs.request.trans h.request, hs.forward.trans h.forward, (hs.response _).trans h.fromDir,
    fun x => (hs.response _).trans (h.fromCache x)⟩

structure SameHome (s s' : Line C V) : Prop where
  dir : s'.dir = s.dir
  toDir : s'.toDir = s.toDir
  memReq : s'.memReq = s.memReq
  memResp : s'.memResp = s.memResp
  mem : s'.mem = s.mem

namespace Holds

variable {s s' : Line C V} {k : Scene C V} {c : C}

variable {r : Role C V}

section

variable (h : Holds s k) (hne : ∀ y, y ≠ c → SameAt s s' y) (hc : Fits s' k.cur k.ack c r) (hs : SameHome s s')
include h hne hc hs

theorem setRole (hco : Coherent s.dir (k.setRole c r).standings k.toDir k.mq) : Holds s' (k.setRole c r) where
  fits y := by
    by_cases hy : y = c
    · subst hy
      rw [Scene.setRole_role_self]
      exact hc
    · rw [Scene.setRole_role_of_ne k hy]
      exact (h.fits y).congr (hne y hy)
  toDir y := by
    rw [hs.toDir]
    exact h.toDir y
  memReq := hs.memReq.trans h.memReq
  memResp := hs.memResp.trans h.memResp
  mem hd := hs.mem.trans (h.mem (by rwa [hs.dir] at hd))
  coherent := by
    rw [hs.dir]
    exact hco

theorem quiet (hr : r.standing = (k.role c).standing) : Holds s' (k.setRole c r) :=
  h.setRole hne hc hs (by rw [k.standings_quiet hr]; exact h.coherent)

end

end Holds

end Gem5.Msi
