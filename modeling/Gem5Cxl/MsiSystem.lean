import Gem5Cxl.Msi
import Gem5Cxl.TaggedFifo
import Mathlib.Logic.Function.Basic
/-!
# MsiSystem — caches, directories and networks of the MSI protocol, and one line of them

The system has caches `C`, directories `D` and lines: line `(d, l)` is line `l` of directory `d`.  Each virtual network
delivers in order between each pair of controllers, so it is a queue for each pair, and the messages of all lines share
it; a message of the head of a queue that is stalled stays there and holds the others up.  Memory answers requests in any
order.  A run is a list of events, each the choice of a port and, for a store, of what the processor writes.

Lines meet only in the queues.  `System.line` is what a system is for one line, a system of its own whose queues hold the
messages of that line, and an event of the system is an event of one line.
-/
namespace Gem5.Msi

open TaggedFifo

variable {C D L V : Type}

/-! ## One line -/

@[ext]
structure Line (C V : Type) where
  cache : C → CacheLine V
  dir : DirEntry C
  mem : V
  request : C → List (RequestMsg V)
  forward : C → List (ForwardMsg C)
  response : Sender C → C → List (ResponseMsg V)
  toDir : C → List V
  memReq : List (MemoryReq C V)
  memResp : List (MemoryResp C V)

inductive LineEvent (C V : Type) where
  | load (c : C)
  | store (c : C) (value : V → V)
  | replacement (c : C)
  | forward (c : C)
  | response (sender : Sender C) (c : C) (value : V → V)
  | request (c : C)
  | toDir (c : C)
  | memory (i : Nat)
  | memQueue

variable [DecidableEq C]

namespace Line

def send (c : C) (s : Line C V) : CacheOut C V → Line C V
  | .request m => { s with request := Function.update s.request c (s.request c ++ [m]) }
  | .response n m =>
    { s with response := fun x y => if x = .cache c ∧ y = n then s.response x y ++ [m] else s.response x y }
  | .toDirectory v => { s with toDir := Function.update s.toDir c (s.toDir c ++ [v]) }

def dirSend (s : Line C V) : DirOut C V → Line C V
  | .forward dest m => { s with forward := fun c => if c ∈ dest then s.forward c ++ [m] else s.forward c }
  | .response n m =>
    { s with response := fun x y => if x = .directory ∧ y = n then s.response x y ++ [m] else s.response x y }
  | .memory m => { s with memReq := s.memReq ++ [m] }

def afterCache (c : C) (s : Line C V) (x : CacheContext C V) : Line C V :=
  x.out.foldl (send c) { s with cache := Function.update s.cache c x.toCacheLine }

def afterDir (s : Line C V) (x : DirContext C V) : Line C V :=
  x.out.foldl dirSend { s with dir := x.toDirEntry }

def popForward (s : Line C V) (c : C) (popped : Bool) : Line C V :=
  { s with forward := Function.update s.forward c (pop popped (s.forward c)) }

def popResponse (s : Line C V) (sender : Sender C) (c : C) (popped : Bool) : Line C V :=
  { s with response := fun x y => if x = sender ∧ y = c then pop popped (s.response x y) else s.response x y }

def popRequest (s : Line C V) (c : C) (popped : Bool) : Line C V :=
  { s with request := Function.update s.request c (pop popped (s.request c)) }

def popToDir (s : Line C V) (c : C) (popped : Bool) : Line C V :=
  { s with toDir := Function.update s.toDir c (pop popped (s.toDir c)) }

def popMemQueue (s : Line C V) (popped : Bool) : Line C V :=
  { s with memResp := pop popped s.memResp }

def serve (s : Line C V) : MemoryReq C V → Line C V
  | .read r => { s with memResp := s.memResp ++ [.data r s.mem] }
  | .write v => { s with mem := v, memResp := s.memResp ++ [.ack] }

variable [Inhabited V]

def step (s : Line C V) : LineEvent C V → Except Failure (Line C V × List (C × Callback V))
  | .load c => do
    let x ← mandatoryIn C (s.cache c) .load id
    return (s.afterCache c x, x.log.map (c, ·))
  | .store c value => do
    let x ← mandatoryIn C (s.cache c) .store value
    return (s.afterCache c x, x.log.map (c, ·))
  | .replacement c =>
    if (s.cache c).cacheEntry.isNone then .ok (s, [])
    else do
      let x ← mandatoryIn C (s.cache c) .replacement id
      return (s.afterCache c x, x.log.map (c, ·))
  | .forward c =>
    match s.forward c with
    | [] => .ok (s, [])
    | m :: _ => do
      let x ← forwardIn (s.cache c) m
      return ((s.popForward c x.popped).afterCache c x, x.log.map (c, ·))
  | .response sender c value =>
    match s.response sender c with
    | [] => .ok (s, [])
    | m :: _ => do
      let x ← responseIn (s.cache c) sender m value
      return ((s.popResponse sender c x.popped).afterCache c x, x.log.map (c, ·))
  | .request c =>
    match s.request c with
    | [] => .ok (s, [])
    | m :: _ => do
      let x ← requestIn s.dir c m
      return ((s.popRequest c x.popped).afterDir x, [])
  | .toDir c =>
    match s.toDir c with
    | [] => .ok (s, [])
    | v :: _ => do
      let x ← dirResponseIn s.dir v
      return ((s.popToDir c x.popped).afterDir x, [])
  | .memory i =>
    match s.memReq[i]? with
    | none => .ok (s, [])
    | some m => .ok ({ s with memReq := s.memReq.eraseIdx i }.serve m, [])
  | .memQueue =>
    match s.memResp with
    | [] => .ok (s, [])
    | m :: _ => do
      let x ← memQueueIn s.dir m
      return ((s.popMemQueue x.popped).afterDir x, [])

end Line

/-! ## The system -/

structure System (C D L V : Type) where
  cache : C → D × L → CacheLine V
  dir : D × L → DirEntry C
  mem : D × L → V
  request : C → D → List (L × RequestMsg V)
  forward : D → C → List (L × ForwardMsg C)
  responseD : D → C → List (L × ResponseMsg V)
  responseC : C → C → List ((D × L) × ResponseMsg V)
  toDir : C → D → List (L × V)
  memReq : D → List (L × MemoryReq C V)
  memResp : D → List (L × MemoryResp C V)

inductive Event (C D L V : Type) where
  | load (c : C) (a : D × L)
  | store (c : C) (a : D × L) (value : V → V)
  | replacement (c : C) (a : D × L)
  | forward (d : D) (c : C)
  | responseD (d : D) (c : C) (value : V → V)
  | responseC (x c : C) (value : V → V)
  | request (c : C) (d : D)
  | toDir (c : C) (d : D)
  | memory (d : D) (i : Nat)
  | memQueue (d : D)

abbrev Log (C D L V : Type) := List ((D × L) × C × Callback V)

namespace System

def create (mem : D × L → V) : System C D L V where
  cache _ _ := {}
  dir _ := {}
  mem := mem
  request _ _ := []
  forward _ _ := []
  responseD _ _ := []
  responseC _ _ := []
  toDir _ _ := []
  memReq _ := []
  memResp _ := []

variable [DecidableEq D] [DecidableEq L]

def send (c : C) (a : D × L) (g : System C D L V) : CacheOut C V → System C D L V
  | .request m =>
    { g with request := fun x d => if x = c ∧ d = a.1 then g.request x d ++ [(a.2, m)] else g.request x d }
  | .response n m =>
    { g with responseC := fun x y => if x = c ∧ y = n then g.responseC x y ++ [(a, m)] else g.responseC x y }
  | .toDirectory v => { g with toDir := fun x d => if x = c ∧ d = a.1 then g.toDir x d ++ [(a.2, v)] else g.toDir x d }

def dirSend (a : D × L) (g : System C D L V) : DirOut C V → System C D L V
  | .forward dest m =>
    { g with forward := fun d c => if d = a.1 ∧ c ∈ dest then g.forward d c ++ [(a.2, m)] else g.forward d c }
  | .response n m =>
    { g with responseD := fun d c => if d = a.1 ∧ c = n then g.responseD d c ++ [(a.2, m)] else g.responseD d c }
  | .memory m => { g with memReq := fun d => if d = a.1 then g.memReq d ++ [(a.2, m)] else g.memReq d }

def afterCache (c : C) (a : D × L) (g : System C D L V) (x : CacheContext C V) : System C D L V :=
  x.out.foldl (send c a)
    { g with cache := fun y b => if y = c ∧ b = a then x.toCacheLine else g.cache y b }

def afterDir (a : D × L) (g : System C D L V) (x : DirContext C V) : System C D L V :=
  x.out.foldl (dirSend a) { g with dir := fun b => if b = a then x.toDirEntry else g.dir b }

def serve (a : D × L) (g : System C D L V) : MemoryReq C V → System C D L V
  | .read r => { g with memResp := fun d => if d = a.1 then g.memResp d ++ [(a.2, .data r (g.mem a))] else g.memResp d }
  | .write v =>
    { g with
      mem := fun b => if b = a then v else g.mem b
      memResp := fun d => if d = a.1 then g.memResp d ++ [(a.2, .ack)] else g.memResp d }

def popForward (g : System C D L V) (d : D) (c : C) (popped : Bool) : System C D L V :=
  { g with forward := fun e y => if e = d ∧ y = c then pop popped (g.forward e y) else g.forward e y }

def popResponseD (g : System C D L V) (d : D) (c : C) (popped : Bool) : System C D L V :=
  { g with responseD := fun e y => if e = d ∧ y = c then pop popped (g.responseD e y) else g.responseD e y }

def popResponseC (g : System C D L V) (x c : C) (popped : Bool) : System C D L V :=
  { g with responseC := fun z y => if z = x ∧ y = c then pop popped (g.responseC z y) else g.responseC z y }

def popRequest (g : System C D L V) (c : C) (d : D) (popped : Bool) : System C D L V :=
  { g with request := fun y e => if y = c ∧ e = d then pop popped (g.request y e) else g.request y e }

def popToDir (g : System C D L V) (c : C) (d : D) (popped : Bool) : System C D L V :=
  { g with toDir := fun y e => if y = c ∧ e = d then pop popped (g.toDir y e) else g.toDir y e }

def popMemQueue (g : System C D L V) (d : D) (popped : Bool) : System C D L V :=
  { g with memResp := fun e => if e = d then pop popped (g.memResp e) else g.memResp e }

def takeMemReq (g : System C D L V) (d : D) (i : Nat) : System C D L V :=
  { g with memReq := fun e => if e = d then (g.memReq e).eraseIdx i else g.memReq e }

/-! ## A system, seen at one line -/

/-- **What the system is for line `a`.** -/
def line (a : D × L) (g : System C D L V) : Line C V where
  cache c := g.cache c a
  dir := g.dir a
  mem := g.mem a
  request c := view a.2 (g.request c a.1)
  forward c := view a.2 (g.forward a.1 c)
  response
    | .directory, c => view a.2 (g.responseD a.1 c)
    | .cache x, c => view a (g.responseC x c)
  toDir c := view a.2 (g.toDir c a.1)
  memReq := view a.2 (g.memReq a.1)
  memResp := view a.2 (g.memResp a.1)

section Line

variable {a b : D × L} {g g₀ : System C D L V} {s : Line C V}

/-- `g` has line `a` as `s`, and the other lines as `g₀` has them. -/
def Moves (a : D × L) (g₀ g : System C D L V) (s : Line C V) : Prop :=
  line a g = s ∧ ∀ b, b ≠ a → line b g = line b g₀

omit [DecidableEq C] in
theorem Moves.refl (a : D × L) (g : System C D L V) : Moves a g g (line a g) := ⟨rfl, fun _ _ => rfl⟩

omit [DecidableEq C] in
/-- **What is sent step by step** moves the line as it moves at each step. -/
theorem Moves.foldl {ω : Type} {f : System C D L V → ω → System C D L V} {f' : Line C V → ω → Line C V}
    (hf : ∀ g o, Moves a g (f g o) (f' (line a g) o)) (out : List ω) (h : Moves a g₀ g s) :
    Moves a g₀ (out.foldl f g) (out.foldl f' s) := by
  induction out generalizing g s with
  | nil => exact h
  | cons o out ih =>
    obtain ⟨rfl, hother⟩ := h
    exact ih ⟨(hf g o).1, fun b hb => ((hf g o).2 b hb).trans (hother b hb)⟩

omit [DecidableEq D] [DecidableEq L] in
theorem snd_ne (h : b ≠ a) (h1 : b.1 = a.1) : a.2 ≠ b.2 := fun h2 => h (Prod.ext h1 h2.symm)

theorem moves_send (c : C) (g : System C D L V) (o : CacheOut C V) : Moves a g (g.send c a o) ((line a g).send c o) := by
  cases o with
  | request m =>
    refine ⟨Line.ext rfl rfl rfl (funext fun x => ?_) rfl rfl rfl rfl rfl,
      fun b hb => Line.ext rfl rfl rfl (funext fun x => view_ite fun hx => ?_) rfl rfl rfl rfl rfl⟩
    · by_cases hx : x = c
      · subst hx
        simp [line, send, Line.send, view_append_self]
      · simp [line, send, Line.send, hx]
    · exact view_append_of_ne (snd_ne hb hx.2) ..
  | response n m =>
    refine ⟨Line.ext rfl rfl rfl rfl rfl (funext fun x => funext fun y => ?_) rfl rfl rfl,
      fun b hb => Line.ext rfl rfl rfl rfl rfl (funext fun x => funext fun y => ?_) rfl rfl rfl⟩
    · cases x with
      | directory => simp [line, send, Line.send]
      | cache x =>
        by_cases hx : x = c ∧ y = n
        · simp [line, send, Line.send, hx, view_append_self]
        · simp [line, send, Line.send, hx]
    · cases x with
      | directory => rfl
      | cache x => exact view_ite fun _ => view_append_of_ne hb.symm ..
  | toDirectory v =>
    refine ⟨Line.ext rfl rfl rfl rfl rfl rfl (funext fun x => ?_) rfl rfl,
      fun b hb => Line.ext rfl rfl rfl rfl rfl rfl (funext fun x => view_ite fun hx => ?_) rfl rfl⟩
    · by_cases hx : x = c
      · subst hx
        simp [line, send, Line.send, view_append_self]
      · simp [line, send, Line.send, hx]
    · exact view_append_of_ne (snd_ne hb hx.2) ..

theorem moves_dirSend (g : System C D L V) (o : DirOut C V) : Moves a g (g.dirSend a o) ((line a g).dirSend o) := by
  cases o with
  | forward dest m =>
    refine ⟨Line.ext rfl rfl rfl rfl (funext fun c => ?_) rfl rfl rfl rfl,
      fun b hb => Line.ext rfl rfl rfl rfl (funext fun c => view_ite fun hc => ?_) rfl rfl rfl rfl⟩
    · by_cases hc : c ∈ dest
      · simp [line, dirSend, Line.dirSend, hc, view_append_self]
      · simp [line, dirSend, Line.dirSend, hc]
    · exact view_append_of_ne (snd_ne hb hc.1) ..
  | response n m =>
    refine ⟨Line.ext rfl rfl rfl rfl rfl (funext fun x => funext fun c => ?_) rfl rfl rfl,
      fun b hb => Line.ext rfl rfl rfl rfl rfl (funext fun x => funext fun c => ?_) rfl rfl rfl⟩
    · cases x with
      | directory =>
        by_cases hc : c = n
        · simp [line, dirSend, Line.dirSend, hc, view_append_self]
        · simp [line, dirSend, Line.dirSend, hc]
      | cache x => simp [line, dirSend, Line.dirSend]
    · cases x with
      | directory => exact view_ite fun hc => view_append_of_ne (snd_ne hb hc.1) ..
      | cache x => rfl
  | memory m =>
    refine ⟨Line.ext rfl rfl rfl rfl rfl rfl rfl ?_ rfl,
      fun b hb => Line.ext rfl rfl rfl rfl rfl rfl rfl (view_ite fun h => ?_) rfl⟩
    · simp [line, dirSend, Line.dirSend, view_append_self]
    · exact view_append_of_ne (snd_ne hb h) ..

theorem Moves.afterCache (h : Moves a g₀ g s) (c : C) (x : CacheContext C V) :
    Moves a g₀ (g.afterCache c a x) (s.afterCache c x) := by
  obtain ⟨rfl, hother⟩ := h
  refine Moves.foldl (moves_send c) x.out ⟨Line.ext (funext fun y => ?_) rfl rfl rfl rfl rfl rfl rfl rfl, fun b hb => ?_⟩
  · by_cases hy : y = c
    · subst hy
      simp [line]
    · simp [line, hy]
  · rw [← hother b hb]
    refine Line.ext (funext fun y => ?_) rfl rfl rfl rfl rfl rfl rfl rfl
    simp [line, hb]

theorem Moves.afterDir (h : Moves a g₀ g s) (x : DirContext C V) : Moves a g₀ (g.afterDir a x) (s.afterDir x) := by
  obtain ⟨rfl, hother⟩ := h
  refine Moves.foldl moves_dirSend x.out ⟨Line.ext rfl ?_ rfl rfl rfl rfl rfl rfl rfl, fun b hb => ?_⟩
  · simp [line]
  · rw [← hother b hb]
    refine Line.ext rfl ?_ rfl rfl rfl rfl rfl rfl rfl
    simp [line, hb]

omit [DecidableEq C] in
theorem Moves.serve (h : Moves a g₀ g s) (m : MemoryReq C V) : Moves a g₀ (g.serve a m) (s.serve m) := by
  obtain ⟨rfl, hother⟩ := h
  have hq : ∀ (b : D × L) (r : MemoryResp C V), b ≠ a →
      view b.2 (if b.1 = a.1 then g.memResp b.1 ++ [(a.2, r)] else g.memResp b.1) = view b.2 (g.memResp b.1) :=
    fun b r hb => view_ite fun h1 => view_append_of_ne (snd_ne hb h1) ..
  cases m with
  | read r =>
    refine ⟨Line.ext rfl rfl rfl rfl rfl rfl rfl rfl ?_, fun b hb => ?_⟩
    · simp [line, System.serve, Line.serve, view_append_self]
    · rw [← hother b hb]
      exact Line.ext rfl rfl rfl rfl rfl rfl rfl rfl (hq b _ hb)
  | write v =>
    refine ⟨Line.ext rfl rfl ?_ rfl rfl rfl rfl rfl ?_, fun b hb => ?_⟩
    · simp [line, System.serve, Line.serve]
    · simp [line, System.serve, Line.serve, view_append_self]
    · rw [← hother b hb]
      refine Line.ext rfl rfl ?_ rfl rfl rfl rfl rfl (hq b _ hb)
      simp [line, System.serve, hb]

/-! ### Taking a message from a queue -/

variable {d : D} {l : L} {c x : C} {i : Nat} (popped : Bool)

theorem moves_popForward {m : ForwardMsg C} {rest : List (L × ForwardMsg C)} (h : g.forward d c = (l, m) :: rest) :
    Moves (d, l) g (g.popForward d c popped) ((line (d, l) g).popForward c popped) := by
  refine ⟨Line.ext rfl rfl rfl rfl (funext fun y => ?_) rfl rfl rfl rfl,
    fun b hb => Line.ext rfl rfl rfl rfl (funext fun y => view_ite ?_) rfl rfl rfl rfl⟩
  · by_cases hy : y = c
    · subst hy
      simp [line, popForward, Line.popForward, view_pop_self h]
    · simp [line, popForward, Line.popForward, hy]
  · rintro ⟨rfl, rfl⟩
    exact view_pop_of_ne (snd_ne hb rfl) h popped

theorem moves_popResponseD {m : ResponseMsg V} {rest : List (L × ResponseMsg V)}
    (h : g.responseD d c = (l, m) :: rest) :
    Moves (d, l) g (g.popResponseD d c popped) ((line (d, l) g).popResponse .directory c popped) := by
  refine ⟨Line.ext rfl rfl rfl rfl rfl (funext fun z => funext fun y => ?_) rfl rfl rfl,
    fun b hb => Line.ext rfl rfl rfl rfl rfl (funext fun z => funext fun y => ?_) rfl rfl rfl⟩
  · cases z with
    | cache z => simp [line, popResponseD, Line.popResponse]
    | directory =>
      by_cases hy : y = c
      · subst hy
        simp [line, popResponseD, Line.popResponse, view_pop_self h]
      · simp [line, popResponseD, Line.popResponse, hy]
  · cases z with
    | cache z => rfl
    | directory =>
      refine view_ite ?_
      rintro ⟨rfl, rfl⟩
      exact view_pop_of_ne (snd_ne hb rfl) h popped

theorem moves_popResponseC {m : ResponseMsg V} {rest : List ((D × L) × ResponseMsg V)}
    (h : g.responseC x c = (a, m) :: rest) :
    Moves a g (g.popResponseC x c popped) ((line a g).popResponse (.cache x) c popped) := by
  refine ⟨Line.ext rfl rfl rfl rfl rfl (funext fun z => funext fun y => ?_) rfl rfl rfl,
    fun b hb => Line.ext rfl rfl rfl rfl rfl (funext fun z => funext fun y => ?_) rfl rfl rfl⟩
  · cases z with
    | directory => simp [line, popResponseC, Line.popResponse]
    | cache z =>
      by_cases hy : z = x ∧ y = c
      · obtain ⟨rfl, rfl⟩ := hy
        simp [line, popResponseC, Line.popResponse, view_pop_self h]
      · simp [line, popResponseC, Line.popResponse, hy]
  · cases z with
    | directory => rfl
    | cache z =>
      refine view_ite ?_
      rintro ⟨rfl, rfl⟩
      exact view_pop_of_ne hb.symm h popped

theorem moves_popRequest {m : RequestMsg V} {rest : List (L × RequestMsg V)} (h : g.request c d = (l, m) :: rest) :
    Moves (d, l) g (g.popRequest c d popped) ((line (d, l) g).popRequest c popped) := by
  refine ⟨Line.ext rfl rfl rfl (funext fun y => ?_) rfl rfl rfl rfl rfl,
    fun b hb => Line.ext rfl rfl rfl (funext fun y => view_ite ?_) rfl rfl rfl rfl rfl⟩
  · by_cases hy : y = c
    · subst hy
      simp [line, popRequest, Line.popRequest, view_pop_self h]
    · simp [line, popRequest, Line.popRequest, hy]
  · rintro ⟨rfl, rfl⟩
    exact view_pop_of_ne (snd_ne hb rfl) h popped

theorem moves_popToDir {v : V} {rest : List (L × V)} (h : g.toDir c d = (l, v) :: rest) :
    Moves (d, l) g (g.popToDir c d popped) ((line (d, l) g).popToDir c popped) := by
  refine ⟨Line.ext rfl rfl rfl rfl rfl rfl (funext fun y => ?_) rfl rfl,
    fun b hb => Line.ext rfl rfl rfl rfl rfl rfl (funext fun y => view_ite ?_) rfl rfl⟩
  · by_cases hy : y = c
    · subst hy
      simp [line, popToDir, Line.popToDir, view_pop_self h]
    · simp [line, popToDir, Line.popToDir, hy]
  · rintro ⟨rfl, rfl⟩
    exact view_pop_of_ne (snd_ne hb rfl) h popped

omit [DecidableEq C] in
theorem moves_popMemQueue {m : MemoryResp C V} {rest : List (L × MemoryResp C V)} (h : g.memResp d = (l, m) :: rest) :
    Moves (d, l) g (g.popMemQueue d popped) ((line (d, l) g).popMemQueue popped) := by
  refine ⟨Line.ext rfl rfl rfl rfl rfl rfl rfl rfl ?_,
    fun b hb => Line.ext rfl rfl rfl rfl rfl rfl rfl rfl (view_ite ?_)⟩
  · simp [line, popMemQueue, Line.popMemQueue, view_pop_self h]
  · rintro rfl
    exact view_pop_of_ne (snd_ne hb rfl) h popped

omit [DecidableEq C] in
theorem moves_takeMemReq {m : MemoryReq C V} (h : (g.memReq d)[i]? = some (l, m)) : Moves (d, l) g (g.takeMemReq d i)
    { line (d, l) g with memReq := (line (d, l) g).memReq.eraseIdx (rank l (g.memReq d) i) } := by
  refine ⟨Line.ext rfl rfl rfl rfl rfl rfl rfl ?_ rfl,
    fun b hb => Line.ext rfl rfl rfl rfl rfl rfl rfl (view_ite ?_) rfl⟩
  · simp [line, takeMemReq, (getElem?_rank h).2]
  · rintro rfl
    exact view_eraseIdx_of_ne (snd_ne hb rfl) h

end Line

variable [Inhabited V]

def finish (c : C) (a : D × L) (g : System C D L V) (x : CacheContext C V) : System C D L V × Log C D L V :=
  (g.afterCache c a x, x.log.map fun e => (a, c, e))

def step (g : System C D L V) : Event C D L V → Except Failure (System C D L V × Log C D L V)
  | .load c a => do
    let x ← mandatoryIn C (g.cache c a) .load id
    return finish c a g x
  | .store c a value => do
    let x ← mandatoryIn C (g.cache c a) .store value
    return finish c a g x
  | .replacement c a =>
    if (g.cache c a).cacheEntry.isNone then .ok (g, [])
    else do
      let x ← mandatoryIn C (g.cache c a) .replacement id
      return finish c a g x
  | .forward d c =>
    match g.forward d c with
    | [] => .ok (g, [])
    | (l, m) :: _ => do
      let x ← forwardIn (g.cache c (d, l)) m
      return finish c (d, l) (g.popForward d c x.popped) x
  | .responseD d c value =>
    match g.responseD d c with
    | [] => .ok (g, [])
    | (l, m) :: _ => do
      let x ← responseIn (g.cache c (d, l)) .directory m value
      return finish c (d, l) (g.popResponseD d c x.popped) x
  | .responseC y c value =>
    match g.responseC y c with
    | [] => .ok (g, [])
    | (a, m) :: _ => do
      let x ← responseIn (g.cache c a) (.cache y) m value
      return finish c a (g.popResponseC y c x.popped) x
  | .request c d =>
    match g.request c d with
    | [] => .ok (g, [])
    | (l, m) :: _ => do
      let x ← requestIn (g.dir (d, l)) c m
      return ((g.popRequest c d x.popped).afterDir (d, l) x, [])
  | .toDir c d =>
    match g.toDir c d with
    | [] => .ok (g, [])
    | (l, v) :: _ => do
      let x ← dirResponseIn (g.dir (d, l)) v
      return ((g.popToDir c d x.popped).afterDir (d, l) x, [])
  | .memory d i =>
    match (g.memReq d)[i]? with
    | none => .ok (g, [])
    | some (l, m) => .ok ((g.takeMemReq d i).serve (d, l) m, [])
  | .memQueue d =>
    match g.memResp d with
    | [] => .ok (g, [])
    | (l, m) :: _ => do
      let x ← memQueueIn (g.dir (d, l)) m
      return ((g.popMemQueue d x.popped).afterDir (d, l) x, [])

def run : System C D L V → List (Event C D L V) → Except Failure (System C D L V × Log C D L V)
  | g, [] => .ok (g, [])
  | g, e :: es => do
    let (g₁, log₁) ← g.step e
    let (g₂, log₂) ← run g₁ es
    return (g₂, log₁ ++ log₂)

/-! ## An event of the system is an event of one line -/

def target (g : System C D L V) : Event C D L V → Option (D × L)
  | .load _ a => some a
  | .store _ a _ => some a
  | .replacement _ a => some a
  | .forward d c => (g.forward d c).head?.map fun p => (d, p.1)
  | .responseD d c _ => (g.responseD d c).head?.map fun p => (d, p.1)
  | .responseC x c _ => (g.responseC x c).head?.map fun p => p.1
  | .request c d => (g.request c d).head?.map fun p => (d, p.1)
  | .toDir c d => (g.toDir c d).head?.map fun p => (d, p.1)
  | .memory d i => (g.memReq d)[i]?.map fun p => (d, p.1)
  | .memQueue d => (g.memResp d).head?.map fun p => (d, p.1)

def lineEvent (g : System C D L V) : Event C D L V → LineEvent C V
  | .load c _ => .load c
  | .store c _ value => .store c value
  | .replacement c _ => .replacement c
  | .forward _ c => .forward c
  | .responseD _ c value => .response .directory c value
  | .responseC x c value => .response (.cache x) c value
  | .request c _ => .request c
  | .toDir c _ => .toDir c
  | .memory d i =>
    match (g.memReq d)[i]? with
    | none => .memory i
    | some (l, _) => .memory (rank l (g.memReq d) i)
  | .memQueue _ => .memQueue

def lineOutcome (a : D × L) (r : System C D L V × Log C D L V) : Line C V × List (C × Callback V) :=
  (line a r.1, r.2.map (·.2))

/-- An outcome that changes and reports on line `a` only. -/
def Local (a : D × L) (g : System C D L V) (r : System C D L V × Log C D L V) : Prop :=
  (∀ b, b ≠ a → line b r.1 = line b g) ∧ ∀ x ∈ r.2, x.1 = a

variable {a : D × L} {g : System C D L V}

variable {s : Line C V} {g' : System C D L V} {e : Event C D L V}

omit [Inhabited V] in
/-- A transition of cache `c` from `g'`, which is `g` with a message of line `a` taken from a queue. -/
theorem finish_spec (c : C) (x : CacheContext C V) (h : Moves a g g' s) :
    lineOutcome a (finish c a g' x) = (s.afterCache c x, x.log.map (c, ·)) ∧ Local a g (finish c a g' x) := by
  obtain ⟨hself, hother⟩ := h.afterCache c x
  refine ⟨?_, hother, fun y hy => ?_⟩
  · rw [lineOutcome, finish, hself, List.map_map]
    rfl
  · obtain ⟨e, -, rfl⟩ := List.mem_map.1 hy
    rfl

omit [Inhabited V] in
theorem afterDir_spec (x : DirContext C V) (h : Moves a g g' s) :
    lineOutcome a (g'.afterDir a x, []) = (s.afterDir x, []) ∧ Local a g (g'.afterDir a x, []) :=
  ⟨congrArg (·, []) (h.afterDir x).1, (h.afterDir x).2, by simp⟩

omit [DecidableEq C] [Inhabited V] in
theorem bind_spec {ξ : Type} {act : Except Failure ξ} {f : ξ → System C D L V × Log C D L V}
    {f' : ξ → Line C V × List (C × Callback V)}
    (h : ∀ x, lineOutcome a (f x) = f' x ∧ Local a g (f x)) :
    (do let x ← act; return f' x) = ((do let x ← act; return f x) : Except Failure _).map (lineOutcome a) ∧
      ∀ r, ((do let x ← act; return f x) : Except Failure _) = .ok r → Local a g r := by
  cases act with
  | error e => exact ⟨rfl, fun r hr => by cases hr⟩
  | ok x =>
    refine ⟨congrArg Except.ok (h x).1.symm, fun r hr => ?_⟩
    cases hr
    exact (h x).2

/-- **An event of the system is the event of its line**, and leaves the others as they are. -/
theorem step_line (h : g.target e = some a) :
    (line a g).step (g.lineEvent e) = (g.step e).map (lineOutcome a) ∧ ∀ r, g.step e = .ok r → Local a g r := by
  cases e with
  | load c b =>
    cases h
    exact bind_spec fun x => finish_spec c x (.refl a g)
  | store c b value =>
    cases h
    exact bind_spec fun x => finish_spec c x (.refl a g)
  | replacement c b =>
    cases h
    rw [step, lineEvent, Line.step]
    by_cases hn : (g.cache c a).cacheEntry.isNone = true
    · have hn' : ((line a g).cache c).cacheEntry.isNone = true := hn
      rw [if_pos hn, if_pos hn']
      refine ⟨rfl, fun r hr => ?_⟩
      cases hr
      exact ⟨fun _ _ => rfl, by simp⟩
    · have hn' : ¬ ((line a g).cache c).cacheEntry.isNone = true := hn
      rw [if_neg hn, if_neg hn']
      exact bind_spec fun x => finish_spec c x (.refl a g)
  | forward d c =>
    cases hq : g.forward d c with
    | nil => simp [target, hq] at h
    | cons p rest =>
      obtain ⟨l, m⟩ := p
      obtain rfl : (d, l) = a := by simpa [target, hq] using h
      have hline : (line (d, l) g).forward c = m :: view l rest := by simp [line, hq]
      simp only [step, lineEvent, Line.step, hq, hline]
      exact bind_spec fun x => finish_spec c x (moves_popForward _ hq)
  | responseD d c value =>
    cases hq : g.responseD d c with
    | nil => simp [target, hq] at h
    | cons p rest =>
      obtain ⟨l, m⟩ := p
      obtain rfl : (d, l) = a := by simpa [target, hq] using h
      have hline : (line (d, l) g).response .directory c = m :: view l rest := by simp [line, hq]
      simp only [step, lineEvent, Line.step, hq, hline]
      exact bind_spec fun x => finish_spec c x (moves_popResponseD _ hq)
  | responseC y c value =>
    cases hq : g.responseC y c with
    | nil => simp [target, hq] at h
    | cons p rest =>
      obtain ⟨b, m⟩ := p
      obtain rfl : b = a := by simpa [target, hq] using h
      have hline : (line b g).response (.cache y) c = m :: view b rest := by simp [line, hq]
      simp only [step, lineEvent, Line.step, hq, hline]
      exact bind_spec fun x => finish_spec c x (moves_popResponseC _ hq)
  | request c d =>
    cases hq : g.request c d with
    | nil => simp [target, hq] at h
    | cons p rest =>
      obtain ⟨l, m⟩ := p
      obtain rfl : (d, l) = a := by simpa [target, hq] using h
      have hline : (line (d, l) g).request c = m :: view l rest := by simp [line, hq]
      simp only [step, lineEvent, Line.step, hq, hline]
      exact bind_spec fun x => afterDir_spec x (moves_popRequest _ hq)
  | toDir c d =>
    cases hq : g.toDir c d with
    | nil => simp [target, hq] at h
    | cons p rest =>
      obtain ⟨l, v⟩ := p
      obtain rfl : (d, l) = a := by simpa [target, hq] using h
      have hline : (line (d, l) g).toDir c = v :: view l rest := by simp [line, hq]
      simp only [step, lineEvent, Line.step, hq, hline]
      exact bind_spec fun x => afterDir_spec x (moves_popToDir _ hq)
  | memory d i =>
    cases hq : (g.memReq d)[i]? with
    | none => simp [target, hq] at h
    | some p =>
      obtain ⟨l, m⟩ := p
      obtain rfl : (d, l) = a := by simpa [target, hq] using h
      have hline : (line (d, l) g).memReq[rank l (g.memReq d) i]? = some m := (getElem?_rank hq).1
      simp only [step, lineEvent, Line.step, hq, hline]
      obtain ⟨hself, hother⟩ := (moves_takeMemReq hq).serve m
      refine ⟨?_, fun r hr => ?_⟩
      · rw [Except.map, lineOutcome, hself]
        rfl
      · cases hr
        exact ⟨hother, by simp⟩
  | memQueue d =>
    cases hq : g.memResp d with
    | nil => simp [target, hq] at h
    | cons p rest =>
      obtain ⟨l, m⟩ := p
      obtain rfl : (d, l) = a := by simpa [target, hq] using h
      have hline : (line (d, l) g).memResp = m :: view l rest := by simp [line, hq]
      simp only [step, lineEvent, Line.step, hq, hline]
      exact bind_spec fun x => afterDir_spec x (moves_popMemQueue _ hq)

theorem step_idle (h : g.target e = none) : g.step e = .ok (g, []) := by
  cases e with
  | load c b => cases h
  | store c b value => cases h
  | replacement c b => cases h
  | forward d c => simp_all [target, step]
  | responseD d c value => simp_all [target, step]
  | responseC y c value => simp_all [target, step]
  | request c d => simp_all [target, step]
  | toDir c d => simp_all [target, step]
  | memory d i =>
    have hq : (g.memReq d)[i]? = none := by simpa [target] using h
    simp only [step, hq]
  | memQueue d => simp_all [target, step]

end System

end Gem5.Msi
