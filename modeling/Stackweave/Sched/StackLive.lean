import Mathlib.Data.Int.Notation
import Stackweave.Tally
import Stackweave.Transition

/-!
# The stack live count (`coro.c`)

A coroutine takes its C stack from the arena, from the cache of its thread, from the shared depot
or from `mmap`. `runloom_stack_live` counts the stacks in use that are not slices of the arena;
sysmon sizes the depot by it. A finished coroutine goes to a pool with its stack still attached,
and that stack stays counted.

* `step_excess`: what each call does to the difference between the counter and the stacks that are
  attached. Warming up, a failed mapping and the growth of an arena stack move it, nothing else
  does, and no call moves it back.
* `stack_live_exact_iff`: the counter is exact all along a run if and only if none of the three
  happens in it.

A call is one step. Addresses are left out: a stack knows its size and whether it is a slice.
-/

namespace Stackweave.StackLive

open Tally Transition

/-! ## Stacks -/

/-- Where the memory of a stack lies. The class of a slice is named by its slot size and node. -/
inductive Place
  | mapped
  | slice (slot node start : ℕ)
  deriving DecidableEq

structure Stack where
  size : ℕ
  place : Place

/-- The parts of `runloom_coro_t` that say what becomes of its stack. -/
structure Coro where
  stack : Stack
  grown : Bool

/-- `runloom_arena_class_t` -/
structure ArenaClass where
  slot : ℕ
  node : ℕ
  cap : ℕ
  next : ℕ
  live : ℕ

/-- The environment and the limits of the machine: the `STACKWEAVE_STACK_ARENA*` variables,
`STACKWEAVE_GWP_STACK`, `STACKWEAVE_STACK_DEPOT_CAP`, and what `autocap_init` reads. -/
structure Config where
  arenaOn : Bool
  arenaN : ℕ
  gwpK : ℕ
  depotCap : Option ℕ
  page : ℕ
  safeMax : ℤ
  maxMapCount : ℤ
  prewarmTarget : ℤ

/-- What a thread has of its own: the cached stacks, the pooled coroutines and the state of its
generator, which starts from the address of the variable. -/
structure Tls where
  stackPool : List Stack
  coroPool : List Coro
  gwpRng : BitVec 64
  rngAddr : BitVec 64

/-- What the threads share. -/
structure Mem where
  live : ℤ
  liveHwm : ℤ
  capCached : ℤ
  depot : List Stack
  arena : List ArenaClass
  globalPool : List Coro
  globalClass : ℕ

/-- What a call on one thread works on. -/
structure View where
  tls : Tls
  mem : Mem

def STACK_TLS_CAP : ℕ := 64
def STACK_TLS_KEEP : ℕ := 32
def STACK_GLOBAL_CAP : ℕ := 1024
def STACK_REFILL_BATCH : ℕ := 32
def ARENA_TABLE : ℕ := 64
def CORO_POOL_CAP : ℕ := 512
def CORO_GLOBAL_BATCH : ℕ := 128
def CORO_GLOBAL_CAP : ℕ := 1024

/-! ## The arena -/

/-- `runloom_arena_class_for_locked`: the index of the class, a new one if there is none. -/
def arenaClassFor (cfg : Config) (slot node : ℕ) (mapOk : Bool) (arena : List ArenaClass) :
    Option ℕ × List ArenaClass :=
  match arena.findIdx? fun k => k.slot == slot && k.node == node with
  | some i => (some i, arena)
  | none =>
    if arena.length < ARENA_TABLE ∧ mapOk = true then
      (some arena.length, arena ++ [⟨slot, node, cfg.arenaN, 0, 0⟩])
    else (none, arena)

/-- `runloom_arena_alloc` of one slot: where it starts. -/
def arenaAlloc (cfg : Config) (slot node : ℕ) (mapOk : Bool) (arena : List ArenaClass) :
    Option ℕ × List ArenaClass :=
  match arenaClassFor cfg slot node mapOk arena with
  | (none, arena) => (none, arena)
  | (some i, arena) =>
    match arena[i]? with
    | none => (none, arena)
    | some k =>
      if k.next + 1 ≤ k.cap then
        (some k.next, arena.set i { k with next := k.next + 1, live := k.live + 1 })
      else (none, arena)

/-- `runloom_arena_free` of one slot. -/
def arenaFree (slot node start : ℕ) (arena : List ArenaClass) : List ArenaClass :=
  match arena.findIdx? fun k => k.slot == slot && k.node == node with
  | none => arena
  | some i => arena.modify i fun k =>
      { k with
        live := k.live - 1
        next := if k.live - 1 = 0 then 0 else if start + 1 = k.next then start else k.next }

/-- `runloom_stack_arena_carve`: the slot holds the guard page and the stack. -/
def stackArenaCarve (cfg : Config) (size node : ℕ) (mapOk : Bool) (arena : List ArenaClass) :
    Option Stack × List ArenaClass :=
  match arenaAlloc cfg (cfg.page + size) node mapOk arena with
  | (some start, arena) => (some ⟨size, .slice (cfg.page + size) node start⟩, arena)
  | (none, arena) => (none, arena)

/-- The test of `runloom_stack_release` and `runloom_coro_grow`: the arena is on and the stack
lies in one of its classes (`runloom_arena_class_of_ptr`). -/
def inArena (cfg : Config) (st : Stack) : Bool := cfg.arenaOn && st.place != .mapped

/-! ## The depot and the caches -/

/-- `runloom_global_stack_cap` -/
def globalStackCap (cfg : Config) (m : Mem) : ℕ :=
  match cfg.depotCap with
  | some n => n
  | none => if 0 < m.capCached then m.capCached.toNat else STACK_GLOBAL_CAP

/-- `runloom_stack_pop_local`: what stands before a stack of the right size is unmapped. -/
def stackPopLocal (size : ℕ) : List Stack → Option Stack × List Stack
  | [] => (none, [])
  | st :: pool => if st.size = size then (some st, pool) else stackPopLocal size pool

/-- The loop of `runloom_stack_refill_from_global`: the cache and the depot after it, with `room`
moves left. -/
@[grind =]
def stackRefill (size : ℕ) : ℕ → List Stack → List Stack → List Stack × List Stack
  | 0, pool, depot => (pool, depot)
  | _ + 1, pool, [] => (pool, [])
  | room + 1, pool, st :: depot =>
    if st.size = size then stackRefill size room (st :: pool) depot
    else stackRefill size (room + 1) pool depot

/-- The loop of `runloom_stack_flush_to_global`: past the cap a stack is unmapped. -/
def depotPush (cap : ℕ) (depot : List Stack) (st : Stack) : List Stack :=
  if depot.length < cap then st :: depot else depot

/-- `runloom_gwp_stack_sample`: whether to unmap, and the generator after it. -/
def gwpStackSample (cfg : Config) (th : Tls) : Bool × BitVec 64 :=
  if cfg.gwpK = 0 then (false, th.gwpRng)
  else
    let x := if th.gwpRng = 0 then th.rngAddr ||| 1 else th.gwpRng
    let x := x ^^^ (x <<< 13)
    let x := x ^^^ (x >>> 7)
    let x := x ^^^ (x <<< 17)
    (x.toNat % cfg.gwpK == 0, x)

namespace View

variable (cfg : Config)

/-- `runloom_stack_flush_to_global` -/
def stackFlushToGlobal (keep : ℕ) (v : View) : View :=
  { tls := { v.tls with stackPool := v.tls.stackPool.take keep }
    mem := { v.mem with depot :=
      (v.tls.stackPool.drop keep).foldl (depotPush (globalStackCap cfg v.mem)) v.mem.depot } }

/-- The end of `runloom_stack_release`: the stack goes to the cache of the thread. -/
def stackCache (st : Stack) (v : View) : View :=
  let v := { v with tls := { v.tls with stackPool := st :: v.tls.stackPool } }
  if STACK_TLS_CAP < v.tls.stackPool.length then v.stackFlushToGlobal cfg STACK_TLS_KEEP else v

/-- `runloom_stack_release` -/
def stackRelease (v : View) (st : Stack) : View :=
  if inArena cfg st then
    match st.place with
    | .mapped => v
    | .slice slot node start =>
      { v with mem := { v.mem with arena := arenaFree slot node start v.mem.arena } }
  else
    let r := gwpStackSample cfg v.tls
    let v : View :=
      { tls := { v.tls with gwpRng := r.2 }, mem := { v.mem with live := v.mem.live - 1 } }
    if r.1 then v else v.stackCache cfg st

/-- The count of `runloom_stack_acquire`. -/
def countLive (v : View) : View :=
  { v with mem :=
    { v.mem with live := v.mem.live + 1, liveHwm := max v.mem.liveHwm (v.mem.live + 1) } }

/-- The rest of `runloom_stack_acquire`: cache, depot, `mmap`. -/
def stackTake (size : ℕ) (mapOk : Bool) (v : View) : Option Stack × View :=
  match stackPopLocal size v.tls.stackPool with
  | (some st, pool) => (some st, { v with tls := { v.tls with stackPool := pool } })
  | (none, pool) =>
    let r := stackRefill size STACK_REFILL_BATCH pool v.mem.depot
    let p := stackPopLocal size r.1
    let v : View :=
      { tls := { v.tls with stackPool := p.2 }, mem := { v.mem with depot := r.2 } }
    match p.1 with
    | some st => (some st, v)
    | none => (if mapOk then some ⟨size, .mapped⟩ else none, v)

/-- `runloom_stack_acquire` -/
def stackAcquire (size node : ℕ) (arenaOk mapOk : Bool) (v : View) : Option Stack × View :=
  if cfg.arenaOn then
    let r := stackArenaCarve cfg size node arenaOk v.mem.arena
    let v := { v with mem := { v.mem with arena := r.2 } }
    match r.1 with
    | some st => (some st, v)
    | none => v.countLive.stackTake size mapOk
  else v.countLive.stackTake size mapOk

/-- `runloom_stack_warmup_posix` when the first `n` mappings succeed. -/
def stackWarmup (size : ℕ) : ℕ → View → View
  | 0, v => v
  | n + 1, v => stackWarmup size n (v.stackRelease cfg ⟨size, .mapped⟩)

/-- `runloom_stack_prewarm_global` when the first `n` mappings succeed. -/
def stackPrewarmGlobal (size : ℕ) : ℕ → View → View
  | 0, v => v
  | n + 1, v =>
    if v.mem.depot.length < globalStackCap cfg v.mem then
      stackPrewarmGlobal size n
        { v with mem := { v.mem with depot := ⟨size, .mapped⟩ :: v.mem.depot } }
    else v

/-- `runloom_stack_autocap_tick`; `decayed` is the watermark after its decay, which the source
computes in floating point. -/
def autocapTick (decayed : ℤ) (v : View) : View :=
  let hwm := max decayed v.mem.live
  let cap := max (max (hwm * 3 |>.tdiv 2) cfg.prewarmTarget) STACK_GLOBAL_CAP
  let safe :=
    if 0 < cfg.maxMapCount then
      min (max (cfg.maxMapCount.tdiv 2 - v.mem.live * 2) 0) cfg.safeMax
    else cfg.safeMax
  { v with mem := { v.mem with liveHwm := hwm, capCached := max (min cap safe) 1 } }

/-! ## Coroutines -/

/-- `runloom_coro_global_refill` -/
def coroGlobalRefill (v : View) : View :=
  { tls := { v.tls with
      coroPool := v.mem.globalPool.take CORO_GLOBAL_BATCH ++ v.tls.coroPool }
    mem := { v.mem with globalPool := v.mem.globalPool.drop CORO_GLOBAL_BATCH } }

/-- The stacks of coroutines whose structs are freed. -/
def releaseAll (v : View) (cs : List Coro) : View :=
  cs.foldl (fun v c => v.stackRelease cfg c.stack) v

/-- The claim at the start of `runloom_coro_global_flush`: the first class to overflow is the one
that is balanced. -/
def claimClass (v : View) : View :=
  match v.tls.coroPool with
  | [] => v
  | c :: _ =>
    if v.mem.globalClass = 0 then { v with mem := { v.mem with globalClass := c.stack.size } }
    else v

/-- The coroutines of a batch that go to the global pool, in the order of the list
`to_global`. -/
def toGlobal (klass : ℕ) (batch : List Coro) : List Coro :=
  (batch.filter fun c => c.stack.size == klass).reverse

/-- The push of `runloom_coro_global_flush` under the lock. -/
def globalPush (cs : List Coro) (v : View) : View :=
  { v with mem := { v.mem with globalPool := cs.reverse ++ v.mem.globalPool } }

/-- `runloom_coro_global_flush` -/
def coroGlobalFlush (v : View) : View :=
  let v := v.claimClass
  let klass := v.mem.globalClass
  let batch := v.tls.coroPool.take CORO_GLOBAL_BATCH
  let v := { v with tls := { v.tls with coroPool := v.tls.coroPool.drop CORO_GLOBAL_BATCH } }
  let v := v.releaseAll cfg (batch.filter fun c => !(c.stack.size == klass))
  let room := CORO_GLOBAL_CAP - v.mem.globalPool.length
  (v.globalPush ((toGlobal klass batch).take room)).releaseAll cfg
    ((toGlobal klass batch).drop room)

/-- The loop of `runloom_coro_thread_flush`, which takes something off the pool in each turn. -/
def coroDrain : ℕ → View → View
  | 0, v => v
  | n + 1, v => if v.tls.coroPool = [] then v else coroDrain n (v.coroGlobalFlush cfg)

/-- `runloom_coro_thread_flush` -/
def coroThreadFlush (v : View) : View :=
  (v.coroDrain cfg v.tls.coroPool.length).stackFlushToGlobal cfg 0

end View

/-- `runloom_round_to_page` -/
def roundToPage (cfg : Config) (size : ℕ) : ℕ := (size + cfg.page - 1) / cfg.page * cfg.page

namespace View

variable (cfg : Config)

/-- The refill at the start of `runloom_coro_new`. -/
def coroRefilled (rounded : ℕ) (v : View) : View :=
  if v.tls.coroPool = [] ∧ rounded = v.mem.globalClass then v.coroGlobalRefill else v

/-- `runloom_coro_new` past the pool. -/
def coroAlloc (rounded node : ℕ) (callocOk arenaOk mapOk : Bool) (v : View) :
    Option Coro × View :=
  if callocOk then
    let r := v.stackAcquire cfg rounded node arenaOk mapOk
    (r.1.map fun st => ⟨st, false⟩, r.2)
  else (none, v)

/-- `runloom_coro_new` for a size in whole pages: only the head of the pool is looked at. -/
def coroNew (rounded node : ℕ) (callocOk arenaOk mapOk : Bool) (v : View) : Option Coro × View :=
  let v := v.coroRefilled rounded
  match v.tls.coroPool with
  | [] => v.coroAlloc cfg rounded node callocOk arenaOk mapOk
  | c :: pool =>
    if c.stack.size = rounded then (some c, { v with tls := { v.tls with coroPool := pool } })
    else v.coroAlloc cfg rounded node callocOk arenaOk mapOk

/-- `runloom_coro_destroy` -/
def coroDestroy (v : View) (c : Coro) : View :=
  if c.grown then v.stackRelease cfg c.stack
  else
    let v := if CORO_POOL_CAP ≤ v.tls.coroPool.length then v.coroGlobalFlush cfg else v
    { v with tls := { v.tls with coroPool := c :: v.tls.coroPool } }

/-- Whether `runloom_coro_grow` moves the coroutine to a new stack. -/
def grows (c : Coro) (rounded : ℕ) (spOk mapOk : Bool) : Bool :=
  decide (c.stack.size < rounded) && spOk && mapOk

/-- `runloom_coro_grow` for a size in whole pages. `spOk`: the saved stack pointer lies in the old
stack. -/
def coroGrow (rounded : ℕ) (spOk mapOk : Bool) (v : View) (c : Coro) : Coro × View :=
  if grows c rounded spOk mapOk then
    (⟨⟨rounded, .mapped⟩, true⟩, if inArena cfg c.stack then v.stackRelease cfg c.stack else v)
  else (c, v)

end View

variable {cfg : Config} {v : View}

/-! ## The system -/

/-- `coros` has a place for every coroutine that was created, empty once it is destroyed. -/
structure State where
  threads : List Tls
  mem : Mem
  coros : List (Option Coro)

/-- Threads with nothing cached; `addrs` are the addresses of their generators. -/
def start (addrs : List (BitVec 64)) : State where
  threads := addrs.map fun a => ⟨[], [], 0, a⟩
  mem := ⟨0, 0, 0, [], [], [], 0⟩
  coros := []

/-- The calls. The environment says how many mappings of a warm-up succeed before one fails, and
whether `calloc`, the mapping of an arena class and the mapping of a stack succeed. -/
inductive Op
  | warmup (t size : ℕ) (n : ℤ) (succeed : ℕ)
  | prewarm (t size n succeed : ℕ)
  | create (t size node : ℕ) (callocOk arenaOk mapOk : Bool)
  | grow (t i newUsable : ℕ) (spOk mapOk : Bool)
  | destroy (t i : ℕ)
  | threadFlush (t : ℕ)
  | tick (t : ℕ) (decayed : ℤ)

@[grind =]
def Op.thread : Op → ℕ
  | warmup t .. | prewarm t .. | create t .. | grow t .. | destroy t .. | threadFlush t
  | tick t _ => t

/-- The size that `runloom_coro_new` and `runloom_coro_warmup` ask for. -/
def stackSize (cfg : Config) (size : ℕ) : ℕ := roundToPage cfg (max size 4096)

/-- The stacks that `runloom_coro_warmup` maps. -/
def warmed (n : ℤ) (succeed : ℕ) : ℕ := min n.toNat succeed

/-- A call on one thread: what it leaves there, and the coroutines. -/
@[grind =]
def call (cfg : Config) (v : View) (coros : List (Option Coro)) :
    Op → Option (View × List (Option Coro))
  | .warmup _ size n succeed =>
    some (v.stackWarmup cfg (stackSize cfg size) (warmed n succeed), coros)
  | .prewarm _ size n succeed => some (v.stackPrewarmGlobal cfg size (min n succeed), coros)
  | .create _ size node callocOk arenaOk mapOk =>
    let r := v.coroNew cfg (stackSize cfg size) node callocOk arenaOk mapOk
    some (r.2, coros ++ [r.1])
  | .grow _ i newUsable spOk mapOk =>
    match coros[i]? with
    | some (some c) =>
      let r := v.coroGrow cfg (roundToPage cfg newUsable) spOk mapOk c
      some (r.2, coros.set i (some r.1))
    | _ => none
  | .destroy _ i =>
    match coros[i]? with
    | some (some c) => some (v.coroDestroy cfg c, coros.set i none)
    | _ => none
  | .threadFlush _ => some (v.coroThreadFlush cfg, coros)
  | .tick _ decayed => some (v.autocapTick cfg decayed, coros)

def step (cfg : Config) (s : State) (op : Op) : Option State :=
  (s.threads[op.thread]?).bind fun th =>
    (call cfg ⟨th, s.mem⟩ s.coros op).map fun r =>
      { threads := s.threads.set op.thread r.1.tls, mem := r.1.mem, coros := r.2 }

def system (cfg : Config) : System State Op where
  init s := ∃ addrs, s = start addrs
  step := step cfg

/-! ## What is attached -/

/-- 1 for a coroutine on a stack outside the arena. -/
def onDepot (cfg : Config) (c : Coro) : ℕ := if inArena cfg c.stack then 0 else 1

def held (cfg : Config) : Option Coro → ℕ
  | none => 0
  | some c => onDepot cfg c

/-- The stacks outside the arena that a coroutine struct has, in use or pooled. -/
def attached (cfg : Config) (s : State) : ℕ :=
  tally (held cfg) s.coros + tally (fun th => tally (onDepot cfg) th.coroPool) s.threads
    + tally (onDepot cfg) s.mem.globalPool

/-- The counter says what is attached, and it is not negative. -/
def Exact (cfg : Config) (s : State) : Prop :=
  s.mem.live = attached cfg s ∧ 0 ≤ s.mem.live

/-- A stack of the size is cached or in the depot. -/
def View.cached (n : ℕ) (v : View) : Bool :=
  v.tls.stackPool.any (·.size == n) || v.mem.depot.any (·.size == n)

/-- A coroutine can be had without `mmap`: from the pool, from the arena, or on a stack that is
cached or in the depot. -/
def View.stocked (cfg : Config) (n node : ℕ) (arenaOk : Bool) (v : View) : Bool :=
  (v.coroRefilled n).tls.coroPool.head?.any (·.stack.size == n)
    || cfg.arenaOn && (stackArenaCarve cfg n node arenaOk v.mem.arena).1.isSome
    || v.cached n

/-- The calls that keep the counter in step: a warm-up that maps nothing, a creation whose stack is
in stock or can be mapped, the growth of a stack that is not a slice, and all the others. -/
@[grind =]
def Balanced (cfg : Config) (s : State) : Op → Prop
  | .warmup _ _ n succeed => warmed n succeed = 0
  | .create t size node callocOk arenaOk mapOk =>
    mapOk = true ∨ callocOk = false ∨ ∀ th, s.threads[t]? = some th →
      View.stocked cfg (stackSize cfg size) node arenaOk ⟨th, s.mem⟩ = true
  | .grow _ i newUsable spOk mapOk => ∀ c, s.coros[i]? = some (some c) →
      View.grows c (roundToPage cfg newUsable) spOk mapOk = true → inArena cfg c.stack = false
  | _ => True

/-! ## The caches hold no slice -/

namespace View

/-- Nothing in the cache of the thread or in the depot is a slice of the arena. -/
def Clean (cfg : Config) (v : View) : Prop :=
  (∀ st ∈ v.tls.stackPool, inArena cfg st = false) ∧ ∀ st ∈ v.mem.depot, inArena cfg st = false

end View

variable {st : Stack} {size : ℕ} {pool depot : List Stack}

@[simp] theorem inArena_mapped : inArena cfg ⟨size, .mapped⟩ = false := by simp [inArena]

theorem stackPopLocal_subset : (stackPopLocal size pool).2 ⊆ pool := by
  induction pool with
  | nil => exact List.Subset.refl _
  | cons a pool ih =>
    by_cases ha : a.size = size
    · simp [stackPopLocal, ha]
    · simp only [stackPopLocal, ha, if_false]
      exact fun x hx => List.mem_cons_of_mem _ (ih hx)

/-- The pop finds a stack of the size, or there is none and the cache is emptied. -/
theorem stackPopLocal_spec (size : ℕ) (pool : List Stack) :
    (∃ st ∈ pool, st.size = size ∧ (stackPopLocal size pool).1 = some st) ∨
      (∀ st ∈ pool, st.size ≠ size) ∧ stackPopLocal size pool = (none, []) := by
  induction pool with
  | nil => exact .inr ⟨by simp, rfl⟩
  | cons a pool ih =>
    by_cases ha : a.size = size
    · exact .inl ⟨a, List.mem_cons_self, ha, by simp [stackPopLocal, ha]⟩
    · simp only [stackPopLocal, ha, if_false]
      rcases ih with ⟨st, hst, hsize, h⟩ | ⟨hnone, h⟩
      · exact .inl ⟨st, List.mem_cons_of_mem _ hst, hsize, h⟩
      · exact .inr ⟨List.forall_mem_cons.mpr ⟨ha, hnone⟩, h⟩

/-- A refill only moves stacks. -/
theorem mem_stackRefill {room : ℕ}
    (h : st ∈ (stackRefill size room pool depot).1 ∨ st ∈ (stackRefill size room pool depot).2) :
    st ∈ pool ∨ st ∈ depot := by
  induction room, pool, depot using stackRefill.induct size with
  | case1 pool depot => simpa [stackRefill] using h
  | case2 n pool => simpa [stackRefill] using h
  | case3 pool depot room a ha ih =>
    simp only [stackRefill, ha, if_true] at h
    rcases ih h with h | h
    · rcases List.mem_cons.mp h with rfl | h
      · exact .inr List.mem_cons_self
      · exact .inl h
    · exact .inr (List.mem_cons_of_mem _ h)
  | case4 pool depot room a ha ih =>
    simp only [stackRefill, ha, if_false] at h
    exact (ih h).imp_right (List.mem_cons_of_mem _)

/-- A refill finds a stack of the size if there is one. -/
theorem stackRefill_finds (size room : ℕ) (pool depot : List Stack) :
    (∃ st ∈ (stackRefill size room pool depot).1, st.size = size) ↔
      (∃ st ∈ pool, st.size = size) ∨ (0 < room ∧ ∃ st ∈ depot, st.size = size) := by
  induction room, pool, depot using stackRefill.induct size with
  | case1 pool depot => simp [stackRefill]
  | case2 n pool => simp [stackRefill]
  | case3 pool depot room a ha ih => simp [stackRefill, ha, ih]
  | case4 pool depot room a ha ih => simp [stackRefill, ha, ih]

theorem mem_depotPush {cap : ℕ} {l : List Stack} (h : st ∈ l.foldl (depotPush cap) depot) :
    st ∈ l ∨ st ∈ depot := by
  induction l generalizing depot with
  | nil => exact .inr h
  | cons a l ih =>
    rcases ih h with h | h
    · exact .inl (List.mem_cons_of_mem _ h)
    · unfold depotPush at h
      split at h
      · rcases List.mem_cons.mp h with rfl | h
        · exact .inl List.mem_cons_self
        · exact .inr h
      · exact .inr h

theorem stackArenaCarve_some {node : ℕ} {mapOk : Bool} {arena : List ArenaClass}
    (h : (stackArenaCarve cfg size node mapOk arena).1 = some st) :
    ∃ slot start, st = ⟨size, .slice slot node start⟩ := by
  unfold stackArenaCarve at h
  split at h
  · cases h
    exact ⟨_, _, rfl⟩
  · cases h

namespace View.Clean

theorem stackFlushToGlobal (h : v.Clean cfg) (keep : ℕ) :
    (v.stackFlushToGlobal cfg keep).Clean cfg := by
  refine ⟨fun st hst => h.1 st (List.mem_of_mem_take hst), fun st hst => ?_⟩
  rcases mem_depotPush hst with hst | hst
  · exact h.1 st (List.mem_of_mem_drop hst)
  · exact h.2 st hst

theorem stackCache (h : v.Clean cfg) (hst : inArena cfg st = false) :
    (v.stackCache cfg st).Clean cfg := by
  have hc : View.Clean cfg { v with tls := { v.tls with stackPool := st :: v.tls.stackPool } } :=
    ⟨List.forall_mem_cons.mpr ⟨hst, h.1⟩, h.2⟩
  unfold View.stackCache
  simp only
  split
  · exact hc.stackFlushToGlobal _
  · exact hc

theorem stackRelease (h : v.Clean cfg) (st : Stack) : (v.stackRelease cfg st).Clean cfg := by
  unfold View.stackRelease
  split
  · split
    · exact h
    · exact h
  · rename_i hst
    have hc : View.Clean cfg ⟨{ v.tls with gwpRng := (gwpStackSample cfg v.tls).2 },
        { v.mem with live := v.mem.live - 1 }⟩ := h
    simp only
    split
    · exact hc
    · exact hc.stackCache (Bool.not_eq_true _ ▸ hst)

theorem releaseAll (h : v.Clean cfg) (cs : List Coro) : (v.releaseAll cfg cs).Clean cfg := by
  induction cs generalizing v with
  | nil => exact h
  | cons c cs ih => exact ih (h.stackRelease c.stack)

theorem stackWarmup (h : v.Clean cfg) (n : ℕ) : (v.stackWarmup cfg size n).Clean cfg := by
  induction n generalizing v with
  | zero => exact h
  | succ n ih => exact ih (h.stackRelease _)

theorem stackPrewarmGlobal (h : v.Clean cfg) (n : ℕ) :
    (v.stackPrewarmGlobal cfg size n).Clean cfg := by
  induction n generalizing v with
  | zero => exact h
  | succ n ih =>
    unfold View.stackPrewarmGlobal
    split
    · exact ih ⟨h.1, List.forall_mem_cons.mpr ⟨inArena_mapped, h.2⟩⟩
    · exact h

theorem globalPush (h : v.Clean cfg) (cs : List Coro) : (v.globalPush cs).Clean cfg := h

theorem coroGlobalFlush (h : v.Clean cfg) : (v.coroGlobalFlush cfg).Clean cfg := by
  have hc : v.claimClass.Clean cfg := by
    unfold View.claimClass
    split
    · exact h
    · split
      · exact h
      · exact h
  unfold View.coroGlobalFlush
  apply releaseAll
  apply globalPush
  apply releaseAll
  exact ⟨hc.1, hc.2⟩

theorem coroThreadFlush (h : v.Clean cfg) : (v.coroThreadFlush cfg).Clean cfg := by
  have drain : ∀ (n : ℕ) {v : View}, v.Clean cfg → (v.coroDrain cfg n).Clean cfg := by
    intro n
    induction n with
    | zero => exact fun h => h
    | succ n ih =>
      intro v h
      unfold View.coroDrain
      split
      · exact h
      · exact ih h.coroGlobalFlush
  exact (drain _ h).stackFlushToGlobal 0

theorem coroRefilled (h : v.Clean cfg) (n : ℕ) : (v.coroRefilled n).Clean cfg := by
  unfold View.coroRefilled
  split
  · exact h
  · exact h

theorem coroDestroy (h : v.Clean cfg) (c : Coro) : (v.coroDestroy cfg c).Clean cfg := by
  unfold View.coroDestroy
  split
  · exact h.stackRelease _
  · simp only
    split
    · exact h.coroGlobalFlush
    · exact h

theorem coroGrow (h : v.Clean cfg) (n : ℕ) (spOk mapOk : Bool) (c : Coro) :
    (v.coroGrow cfg n spOk mapOk c).2.Clean cfg := by
  unfold View.coroGrow
  split
  · simp only
    split
    · exact h.stackRelease _
    · exact h
  · exact h

theorem stackTake (h : v.Clean cfg) (mapOk : Bool) : (v.stackTake size mapOk).2.Clean cfg := by
  have refill : ∀ st, st ∈ (stackRefill size STACK_REFILL_BATCH
      (stackPopLocal size v.tls.stackPool).2 v.mem.depot).1 ∨
      st ∈ (stackRefill size STACK_REFILL_BATCH
        (stackPopLocal size v.tls.stackPool).2 v.mem.depot).2 → inArena cfg st = false := by
    intro st hst
    rcases mem_stackRefill hst with hst | hst
    · exact h.1 st (stackPopLocal_subset hst)
    · exact h.2 st hst
  unfold View.stackTake
  split
  · rename_i hp
    refine ⟨fun st hst => h.1 st (@stackPopLocal_subset size _ _ ?_), h.2⟩
    rw [hp]
    exact hst
  · rename_i hp
    rw [hp] at refill
    have hpop : ∀ st ∈ (stackPopLocal size (stackRefill size STACK_REFILL_BATCH _ v.mem.depot).1).2,
        inArena cfg st = false := fun st hst => refill st (.inl (stackPopLocal_subset hst))
    simp only
    split
    · exact ⟨hpop, fun st hst => refill st (.inr hst)⟩
    · exact ⟨hpop, fun st hst => refill st (.inr hst)⟩

theorem coroNew (h : v.Clean cfg) (n node : ℕ) (callocOk arenaOk mapOk : Bool) :
    (v.coroNew cfg n node callocOk arenaOk mapOk).2.Clean cfg := by
  have alloc : ∀ {u : View}, u.Clean cfg →
      (u.coroAlloc cfg n node callocOk arenaOk mapOk).2.Clean cfg := by
    intro u hu
    unfold View.coroAlloc View.stackAcquire
    split
    · simp only
      split
      · split
        · exact hu
        · apply stackTake
          exact hu
      · apply stackTake
        exact hu
    · exact hu
  have hc := h.coroRefilled n
  unfold View.coroNew
  simp only
  split
  · exact alloc hc
  · split
    · exact hc
    · exact alloc hc

end View.Clean

/-! ## How far the counter is off -/

namespace View

variable {cs : List Coro} {c : Coro}

/-- The counter less the attached stacks of the pools. -/
def excess (cfg : Config) (v : View) : ℤ :=
  v.mem.live - tally (onDepot cfg) v.tls.coroPool - tally (onDepot cfg) v.mem.globalPool

theorem stackCache_excess (st : Stack) : (v.stackCache cfg st).excess cfg = v.excess cfg := by
  unfold stackCache
  simp only
  split
  · rfl
  · rfl

/-- A release takes one off the counter, unless the stack is a slice. -/
theorem stackRelease_excess (c : Coro) :
    (v.stackRelease cfg c.stack).excess cfg = v.excess cfg - onDepot cfg c := by
  unfold stackRelease onDepot
  split
  · rename_i hst
    split
    · simp
    · simp [excess]
  · simp only
    split
    · simp only [excess]
      omega
    · rw [stackCache_excess]
      simp only [excess]
      omega

theorem releaseAll_excess :
    (v.releaseAll cfg cs).excess cfg = v.excess cfg - tally (onDepot cfg) cs := by
  induction cs generalizing v with
  | nil => simp [releaseAll]
  | cons c cs ih =>
    have h := ih (v := v.stackRelease cfg c.stack)
    rw [stackRelease_excess] at h
    simp only [tally_cons, Int.natCast_add]
    unfold releaseAll at h ⊢
    rw [List.foldl_cons, h]
    omega

theorem globalPush_excess :
    (v.globalPush cs).excess cfg = v.excess cfg - tally (onDepot cfg) cs := by
  have h : tally (onDepot cfg) cs.reverse = tally (onDepot cfg) cs :=
    tally_perm (List.reverse_perm cs)
  simp only [excess, globalPush, tally_append, h]
  omega

theorem stackWarmup_excess (n : ℕ) :
    (v.stackWarmup cfg size n).excess cfg = v.excess cfg - n := by
  induction n generalizing v with
  | zero => simp [stackWarmup]
  | succ n ih =>
    have h : (v.stackRelease cfg ⟨size, .mapped⟩).excess cfg = v.excess cfg - 1 := by
      simpa [onDepot] using stackRelease_excess ⟨⟨size, .mapped⟩, false⟩
    rw [stackWarmup, ih, h]
    omega

theorem stackPrewarmGlobal_excess (n : ℕ) :
    (v.stackPrewarmGlobal cfg size n).excess cfg = v.excess cfg := by
  induction n generalizing v with
  | zero => rfl
  | succ n ih =>
    unfold stackPrewarmGlobal
    split
    · rw [ih]
      rfl
    · rfl

theorem claimClass_excess : v.claimClass.excess cfg = v.excess cfg := by
  unfold claimClass
  split
  · rfl
  · split
    · rfl
    · rfl

/-- A flush releases what it does not keep. -/
theorem coroGlobalFlush_excess : (v.coroGlobalFlush cfg).excess cfg = v.excess cfg := by
  have taken : ∀ {u : View}, excess cfg { u with tls :=
      { u.tls with coroPool := u.tls.coroPool.drop CORO_GLOBAL_BATCH } } =
        u.excess cfg + tally (onDepot cfg) (u.tls.coroPool.take CORO_GLOBAL_BATCH) := by
    intro u
    have h := tally_take_drop (w := onDepot cfg) CORO_GLOBAL_BATCH u.tls.coroPool
    simp only [excess]
    omega
  have split : ∀ (klass room : ℕ) (batch : List Coro),
      tally (onDepot cfg) (batch.filter fun c => !(c.stack.size == klass))
        + (tally (onDepot cfg) ((toGlobal klass batch).take room)
          + tally (onDepot cfg) ((toGlobal klass batch).drop room))
        = tally (onDepot cfg) batch := by
    intro klass room batch
    have h := tally_filter (w := onDepot cfg) (fun c => c.stack.size == klass) batch
    rw [tally_take_drop, toGlobal, tally_perm (List.reverse_perm _)]
    omega
  unfold coroGlobalFlush
  simp only [releaseAll_excess, globalPush_excess, taken, claimClass_excess]
  generalize CORO_GLOBAL_CAP - _ = room
  have h := split v.claimClass.mem.globalClass room
    (v.claimClass.tls.coroPool.take CORO_GLOBAL_BATCH)
  omega

theorem coroThreadFlush_excess : (v.coroThreadFlush cfg).excess cfg = v.excess cfg := by
  have drain : ∀ (n : ℕ) (v : View), (v.coroDrain cfg n).excess cfg = v.excess cfg := by
    intro n
    induction n with
    | zero => exact fun _ => rfl
    | succ n ih =>
      intro v
      unfold coroDrain
      split
      · rfl
      · rw [ih, coroGlobalFlush_excess]
  exact drain _ v

theorem coroRefilled_excess (n : ℕ) : (v.coroRefilled n).excess cfg = v.excess cfg := by
  unfold coroRefilled
  split
  · have h := tally_take_drop (w := onDepot cfg) CORO_GLOBAL_BATCH v.mem.globalPool
    simp only [coroGlobalRefill, excess, tally_append]
    omega
  · rfl

/-- A destroyed coroutine is pooled with its stack, or its stack is released. -/
theorem coroDestroy_excess (c : Coro) :
    (v.coroDestroy cfg c).excess cfg = v.excess cfg - onDepot cfg c := by
  have pooled : ∀ {u : View},
      excess cfg { u with tls := { u.tls with coroPool := c :: u.tls.coroPool } }
        = u.excess cfg - onDepot cfg c := by
    intro u
    simp only [excess, tally_cons]
    omega
  unfold coroDestroy
  split
  · exact stackRelease_excess c
  · simp only [pooled]
    split
    · rw [coroGlobalFlush_excess]
    · rfl

/-- The bigger stack is attached without being counted. It takes the place of one that was
counted, unless that was a slice. -/
theorem coroGrow_excess (cfg : Config) (v : View) (n : ℕ) (spOk mapOk : Bool) (c : Coro) :
    (v.coroGrow cfg n spOk mapOk c).2.excess cfg - onDepot cfg (v.coroGrow cfg n spOk mapOk c).1
      = v.excess cfg - onDepot cfg c
        + if grows c n spOk mapOk && inArena cfg c.stack then -1 else 0 := by
  unfold coroGrow
  cases hg : grows c n spOk mapOk
  · simp
  · cases ha : inArena cfg c.stack
    · simp [onDepot, ha]
    · have hold : onDepot cfg c = 0 := by simp [onDepot, ha]
      have hnew : onDepot cfg ⟨⟨n, .mapped⟩, true⟩ = 1 := by simp [onDepot]
      simp only [if_true, Bool.and_true, stackRelease_excess, hold, hnew]
      omega

theorem stackTake_excess (mapOk : Bool) :
    (v.stackTake size mapOk).2.excess cfg = v.excess cfg := by
  unfold stackTake
  split
  · rfl
  · simp only
    split
    · rfl
    · rfl

theorem cached_eq_false {n : ℕ} : v.cached n = false ↔
    (∀ st ∈ v.tls.stackPool, st.size ≠ n) ∧ ∀ st ∈ v.mem.depot, st.size ≠ n := by
  simp [cached]

theorem cached_eq_true {n : ℕ} : v.cached n = true ↔
    ∃ st, (st ∈ v.tls.stackPool ∨ st ∈ v.mem.depot) ∧ st.size = n := by
  simp [cached, or_and_right, exists_or]

/-- Past the arena a stack comes from the caches, or it is mapped if they have none. -/
theorem stackTake_spec (v : View) (size : ℕ) (mapOk : Bool) :
    (∃ st, (st ∈ v.tls.stackPool ∨ st ∈ v.mem.depot) ∧ st.size = size ∧
      (v.stackTake size mapOk).1 = some st) ∨
    v.cached size = false ∧
      (v.stackTake size mapOk).1 = if mapOk then some ⟨size, .mapped⟩ else none := by
  unfold stackTake
  rcases stackPopLocal_spec size v.tls.stackPool with ⟨st, hst, hsize, h⟩ | ⟨hnone, h⟩
  · rw [← Prod.mk.eta (p := stackPopLocal size v.tls.stackPool), h]
    exact .inl ⟨st, .inl hst, hsize, rfl⟩
  · rw [h]
    have hfind := stackRefill_finds size STACK_REFILL_BATCH [] v.mem.depot
    rcases stackPopLocal_spec size (stackRefill size STACK_REFILL_BATCH [] v.mem.depot).1 with
      ⟨st, hst, hsize, h⟩ | ⟨hnone', h⟩
    · simp only [h]
      rcases mem_stackRefill (.inl hst) with hm | hm
      · cases hm
      · exact .inl ⟨st, .inr hm, hsize, rfl⟩
    · simp only [h]
      refine .inr ⟨cached_eq_false.mpr ⟨hnone, fun st hst hsize => ?_⟩, trivial⟩
      obtain ⟨st', hst', hsize'⟩ := hfind.mpr (.inr ⟨by decide, st, hst, hsize⟩)
      exact hnone' st' hst' hsize'

/-- What is taken is counted first, and the count stands if nothing is found. -/
theorem Clean.countLive_balance (h : v.Clean cfg) (n : ℕ) (mapOk : Bool) :
    (v.countLive.stackTake n mapOk).2.excess cfg
        - held cfg ((v.countLive.stackTake n mapOk).1.map fun st => ⟨st, false⟩)
      = v.excess cfg + if !mapOk && !v.cached n then 1 else 0 := by
  have counted : v.countLive.excess cfg = v.excess cfg + 1 := by
    simp only [countLive, excess]
    omega
  rw [stackTake_excess, counted]
  rcases stackTake_spec v.countLive n mapOk with ⟨st, hst, hsize, htake⟩ | ⟨hnone, htake⟩
  · have hin : inArena cfg st = false := hst.elim (h.1 st) (h.2 st)
    have hc : v.cached n = true := cached_eq_true.mpr ⟨st, hst, hsize⟩
    simp [htake, held, onDepot, hin, hc]
  · have hc : v.cached n = false := hnone
    cases mapOk with
    | true => simp [htake, held, onDepot]
    | false => simp [htake, held, hc]

/-- A slice is not counted. -/
theorem Clean.stackAcquire_balance (h : v.Clean cfg) (n node : ℕ) (arenaOk mapOk : Bool) :
    (v.stackAcquire cfg n node arenaOk mapOk).2.excess cfg
        - held cfg ((v.stackAcquire cfg n node arenaOk mapOk).1.map fun st => ⟨st, false⟩)
      = v.excess cfg + if !mapOk
          && !(cfg.arenaOn && (stackArenaCarve cfg n node arenaOk v.mem.arena).1.isSome
            || v.cached n) then 1 else 0 := by
  unfold stackAcquire
  cases ha : cfg.arenaOn with
  | false => simpa using h.countLive_balance n mapOk
  | true =>
    simp only [if_true]
    cases hr : (stackArenaCarve cfg n node arenaOk v.mem.arena).1 with
    | none =>
      have hc : View.Clean cfg { v with mem := { v.mem with
        arena := (stackArenaCarve cfg n node arenaOk v.mem.arena).2 } } := h
      simpa [cached, excess] using hc.countLive_balance n mapOk
    | some st =>
      have hin : inArena cfg st = true := by
        obtain ⟨slot, start, rfl⟩ := stackArenaCarve_some hr
        simp [inArena, ha]
      simp [held, onDepot, hin, excess]

theorem Clean.coroAlloc_balance (h : v.Clean cfg) (n node : ℕ) (callocOk arenaOk mapOk : Bool) :
    (v.coroAlloc cfg n node callocOk arenaOk mapOk).2.excess cfg
        - held cfg (v.coroAlloc cfg n node callocOk arenaOk mapOk).1
      = v.excess cfg + if callocOk && (!mapOk
          && !(cfg.arenaOn && (stackArenaCarve cfg n node arenaOk v.mem.arena).1.isSome
            || v.cached n)) then 1 else 0 := by
  unfold coroAlloc
  cases callocOk with
  | false => simp [held]
  | true => simpa using h.stackAcquire_balance n node arenaOk mapOk

/-- A creation counts the stack that it attaches. One that fails for want of a stack has counted
all the same. -/
theorem Clean.coroNew_balance (h : v.Clean cfg) (n node : ℕ) (callocOk arenaOk mapOk : Bool) :
    (v.coroNew cfg n node callocOk arenaOk mapOk).2.excess cfg
        - held cfg (v.coroNew cfg n node callocOk arenaOk mapOk).1
      = v.excess cfg
        + if callocOk && !mapOk && !v.stocked cfg n node arenaOk then 1 else 0 := by
  have hex : (v.coroRefilled n).excess cfg = v.excess cfg := coroRefilled_excess n
  have hmem : (v.coroRefilled n).mem.arena = v.mem.arena
      ∧ (v.coroRefilled n).cached n = v.cached n := by
    unfold View.coroRefilled
    split
    · exact ⟨rfl, rfl⟩
    · exact ⟨rfl, rfl⟩
  have hcold := (h.coroRefilled n).coroAlloc_balance n node callocOk arenaOk mapOk
  rw [hex, hmem.1, hmem.2] at hcold
  unfold View.coroNew stocked
  simp only
  split
  · rename_i hpool
    simpa [hpool, Bool.and_assoc] using hcold
  · rename_i c pool hpool
    split
    · rename_i hsize
      rw [← hex]
      simp only [excess, hpool, held, hsize, tally_cons, List.head?_cons, Option.any_some,
        beq_self_eq_true, Bool.true_or, Bool.not_true, Bool.and_false, Bool.false_eq_true, if_false]
      omega
    · rename_i hsize
      simpa [hpool, hsize, Bool.and_assoc] using hcold

end View

/-! ## What a call does to it -/

/-- The counter less what is attached. -/
def excess (cfg : Config) (s : State) : ℤ := s.mem.live - attached cfg s

/-- No cache holds a slice. -/
def Clean (cfg : Config) (s : State) : Prop :=
  ∀ th ∈ s.threads, View.Clean cfg ⟨th, s.mem⟩

/-- What a call adds to the excess. -/
@[grind =]
def drift (cfg : Config) (s : State) : Op → ℤ
  | .warmup _ _ n succeed => -(warmed n succeed)
  | .create t size node callocOk arenaOk mapOk =>
    match s.threads[t]? with
    | some th =>
      if callocOk && !mapOk
        && !View.stocked cfg (stackSize cfg size) node arenaOk ⟨th, s.mem⟩ then 1 else 0
    | none => 0
  | .grow _ i newUsable spOk mapOk =>
    match s.coros[i]? with
    | some (some c) =>
      if View.grows c (roundToPage cfg newUsable) spOk mapOk && inArena cfg c.stack then -1 else 0
    | _ => 0
  | _ => 0

variable {s s' : State} {op : Op}

theorem drift_eq_zero : drift cfg s op = 0 ↔ Balanced cfg s op := by
  cases op with
  | warmup t size n succeed => simp [drift, Balanced]
  | create t size node callocOk arenaOk mapOk =>
    cases ht : s.threads[t]? with
    | none => simp [drift, Balanced, ht]
    | some th => cases mapOk <;> cases callocOk <;> simp [drift, Balanced, ht]
  | grow t i newUsable spOk mapOk =>
    simp only [drift, Balanced]
    split
    · rename_i c hc
      simp [hc]
    · rename_i hc
      simp only [true_iff]
      exact fun c h => absurd h (hc c)
  | prewarm | destroy | threadFlush | tick => simp [drift, Balanced]

/-- What a call leaves on its thread is as clean as before. -/
theorem call_clean {coros : List (Option Coro)} {r : View × List (Option Coro)}
    (h : v.Clean cfg) (hr : call cfg v coros op = some r) : r.1.Clean cfg := by
  cases op with
  | warmup t size n succeed =>
    cases hr
    exact h.stackWarmup _
  | prewarm t size n succeed =>
    cases hr
    exact h.stackPrewarmGlobal _
  | create t size node callocOk arenaOk mapOk =>
    cases hr
    exact h.coroNew _ _ _ _ _
  | grow t i newUsable spOk mapOk =>
    simp only [call] at hr
    split at hr
    · cases hr
      exact h.coroGrow _ _ _ _
    · cases hr
  | destroy t i =>
    simp only [call] at hr
    split at hr
    · cases hr
      exact h.coroDestroy _
    · cases hr
  | threadFlush t =>
    cases hr
    exact h.coroThreadFlush
  | tick t decayed =>
    cases hr
    exact h

/-- The excess of a call, on the thread that it runs on. -/
theorem call_excess {r : View × List (Option Coro)} {th : Tls}
    (ht : s.threads[op.thread]? = some th) (h : View.Clean cfg ⟨th, s.mem⟩)
    (hr : call cfg ⟨th, s.mem⟩ s.coros op = some r) :
    r.1.excess cfg - tally (held cfg) r.2
      = View.excess cfg ⟨th, s.mem⟩ - tally (held cfg) s.coros + drift cfg s op := by
  cases op with
  | warmup t size n succeed =>
    cases hr
    simp only [View.stackWarmup_excess, drift]
    omega
  | prewarm t size n succeed =>
    cases hr
    simp only [View.stackPrewarmGlobal_excess, drift]
    omega
  | create t size node callocOk arenaOk mapOk =>
    cases hr
    have hb := h.coroNew_balance (stackSize cfg size) node callocOk arenaOk mapOk
    simp only [Op.thread] at ht
    simp only [drift, ht, tally_append, tally_cons, tally_nil]
    omega
  | grow t i newUsable spOk mapOk =>
    simp only [call] at hr
    split at hr
    · rename_i c hc
      cases hr
      have hb := View.coroGrow_excess cfg ⟨th, s.mem⟩ (roundToPage cfg newUsable) spOk mapOk c
      have hset := tally_set (w := held cfg) hc
        (some (View.coroGrow cfg (roundToPage cfg newUsable) spOk mapOk ⟨th, s.mem⟩ c).1)
      simp only [held] at hset
      simp only [drift, hc]
      revert hb
      generalize (if View.grows c (roundToPage cfg newUsable) spOk mapOk && inArena cfg c.stack
        then (-1 : ℤ) else 0) = d
      omega
    · cases hr
  | destroy t i =>
    simp only [call] at hr
    split at hr
    · rename_i c hc
      cases hr
      have hset := tally_set (w := held cfg) hc none
      simp only [held] at hset
      simp only [View.coroDestroy_excess, drift]
      omega
    · cases hr
  | threadFlush t =>
    cases hr
    simp only [View.coroThreadFlush_excess, drift]
    omega
  | tick t decayed =>
    cases hr
    simp only [View.autocapTick, View.excess, drift]
    omega

theorem step_cases (hs : step cfg s op = some s') :
    ∃ th r, s.threads[op.thread]? = some th ∧ call cfg ⟨th, s.mem⟩ s.coros op = some r ∧
      s' = { threads := s.threads.set op.thread r.1.tls, mem := r.1.mem, coros := r.2 } := by
  obtain ⟨th, ht, hr⟩ := Option.bind_eq_some_iff.mp hs
  obtain ⟨r, hr, h⟩ := Option.map_eq_some_iff.mp hr
  exact ⟨th, r, ht, hr, h.symm⟩

theorem Clean.step (h : Clean cfg s) (hs : step cfg s op = some s') : Clean cfg s' := by
  obtain ⟨th, r, ht, hr, rfl⟩ := step_cases hs
  have hc : r.1.Clean cfg := call_clean (h th (List.mem_of_getElem? ht)) hr
  intro u hu
  rcases List.mem_or_eq_of_mem_set hu with hu | rfl
  · exact ⟨(h u hu).1, hc.2⟩
  · exact hc

/-- **The drift.** Each call changes the excess by what it drifts. -/
theorem step_excess (h : Clean cfg s) (hs : step cfg s op = some s') :
    excess cfg s' = excess cfg s + drift cfg s op := by
  obtain ⟨th, r, ht, hr, rfl⟩ := step_cases hs
  have hcall := call_excess ht (h th (List.mem_of_getElem? ht)) hr
  have hset := tally_set (w := fun th : Tls => tally (onDepot cfg) th.coroPool) ht r.1.tls
  simp only [View.excess] at hcall
  simp only [excess, attached]
  omega

/-! ## Runs -/

theorem excess_eq_zero : excess cfg s = 0 ↔ Exact cfg s := by
  unfold excess Exact
  omega

theorem start_clean (addrs : List (BitVec 64)) : Clean cfg (start addrs) := by
  intro th hth
  obtain ⟨a, -, rfl⟩ := List.mem_map.mp hth
  exact ⟨by simp, by simp [start]⟩

theorem start_excess (addrs : List (BitVec 64)) : excess cfg (start addrs) = 0 := by
  have h : tally (fun th : Tls => tally (onDepot cfg) th.coroPool) (start addrs).threads = 0 := by
    induction addrs with
    | nil => rfl
    | cons a addrs ih => simpa [start] using ih
  simp only [excess, attached, h]
  simp [start]

theorem clean_of_run {addrs : List (BitVec 64)} {ops : List Op}
    (hrun : (system cfg).run (start addrs) ops = some s) : Clean cfg s := by
  have h : Reachable (system cfg) s := reachable_of_run _ _ ⟨addrs, rfl⟩ hrun
  refine h.invariant ?_ fun s op t _ hs hstep => hs.step hstep
  rintro s ⟨addrs, rfl⟩
  exact start_clean addrs

theorem run_snoc {u : State} {ops : List Op} :
    (system cfg).run s (ops ++ [op]) = some u ↔
      ∃ t, (system cfg).run s ops = some t ∧ step cfg t op = some u := by
  rw [System.run_append, Option.bind_eq_some_iff]
  simp [System.run, system]

/-- **The counter is exact along a run if and only if each call of the run is balanced** in the
state that it finds. -/
theorem stack_live_exact_iff (cfg : Config) (addrs : List (BitVec 64)) (ops : List Op) (s : State)
    (hrun : (system cfg).run (start addrs) ops = some s) :
    (∀ p t, p <+: ops → (system cfg).run (start addrs) p = some t → Exact cfg t) ↔
      ∀ p op t, p ++ [op] <+: ops → (system cfg).run (start addrs) p = some t →
        Balanced cfg t op := by
  constructor
  · rintro hexact p op t ⟨rest, rfl⟩ ht
    -- the run goes on past the call, and the state after it is exact too
    obtain ⟨u, hu, -⟩ := Option.bind_eq_some_iff.mp ((System.run_append _ _ _).symm.trans hrun)
    obtain ⟨t', ht', hstep⟩ := run_snoc.mp hu
    obtain rfl : t' = t := Option.some.inj (ht'.symm.trans ht)
    have h₁ := excess_eq_zero.mpr (hexact p t' ⟨[op] ++ rest, by simp⟩ ht)
    have h₂ := excess_eq_zero.mpr (hexact (p ++ [op]) u ⟨rest, rfl⟩ hu)
    have h := step_excess (clean_of_run ht) hstep
    exact drift_eq_zero.mp (by omega)
  · intro hbal p
    induction p using List.reverseRecOn with
    | nil =>
      rintro t - ht
      cases ht
      exact excess_eq_zero.mp (start_excess addrs)
    | append_singleton p op ih =>
      intro t hp ht
      obtain ⟨u, hu, hstep⟩ := run_snoc.mp ht
      have hprefix : p <+: ops := (List.prefix_append p [op]).trans hp
      have h₁ := excess_eq_zero.mpr (ih u hprefix hu)
      have h₂ := drift_eq_zero.mpr (hbal p op u hp hu)
      have h := step_excess (clean_of_run hu) hstep
      exact excess_eq_zero.mp (by omega)

/-- A machine of 4 KiB pages with the arena off or on. -/
def linux (arenaOn : Bool) : Config where
  arenaOn := arenaOn
  arenaN := 1200000
  gwpK := 0
  depotCap := none
  page := 4096
  safeMax := 8192
  maxMapCount := 65530
  prewarmTarget := 0

/-- A coroutine that grows, one that is pooled, and the exit of the thread. -/
def plainRun : List Op :=
  [.create 0 8192 0 true true true, .grow 0 0 65536 true true, .destroy 0 0,
    .create 0 8192 0 true true true, .destroy 0 1, .threadFlush 0]

theorem stack_live_exact_plain : ∃ s,
    (system (linux false)).run (start [0]) plainRun = some s ∧ s.mem.live = 1 ∧
      Exact (linux false) s := by
  obtain ⟨s, hs⟩ : ∃ s, (system (linux false)).run (start [0]) plainRun = some s := ⟨_, rfl⟩
  have hlive : s.mem.live = 1 := by
    cases hs
    rfl
  refine ⟨s, hs, hlive, (stack_live_exact_iff _ _ _ _ hs).mpr ?_ _ _ List.prefix_rfl hs⟩
  intro p op t hp _
  have hop : op ∈ plainRun := hp.subset (by simp)
  simp only [plainRun, List.mem_cons, List.not_mem_nil, or_false] at hop
  rcases hop with rfl | rfl | rfl | rfl | rfl | rfl
  · exact .inl rfl
  · exact fun c _ _ => by simp [inArena, linux]
  · trivial
  · exact .inl rfl
  · trivial
  · trivial

/-- A warmed-up stack is released without having been acquired; a coroutine whose stack could not
be mapped has been counted; and a coroutine that has left the arena gives back a stack that never
was. -/
theorem stack_live_drifts :
    (∃ s, (system (linux false)).run (start [0]) [.warmup 0 8192 1 1] = some s ∧
      s.mem.live = -1 ∧ attached (linux false) s = 0) ∧
    (∃ s, (system (linux false)).run (start [0]) [.create 0 8192 0 true true false] = some s ∧
      s.mem.live = 1 ∧ attached (linux false) s = 0) ∧
    (∃ s, (system (linux true)).run (start [0])
        [.create 0 8192 0 true true true, .grow 0 0 65536 true true] = some s ∧
      s.mem.live = 0 ∧ attached (linux true) s = 1) ∧
    ∃ s, (system (linux true)).run (start [0])
        [.create 0 8192 0 true true true, .grow 0 0 65536 true true, .destroy 0 0] = some s ∧
      s.mem.live = -1 ∧ attached (linux true) s = 0 :=
  ⟨⟨_, rfl, rfl, rfl⟩, ⟨_, rfl, rfl, rfl⟩, ⟨_, rfl, rfl, rfl⟩, ⟨_, rfl, rfl, rfl⟩⟩

end Stackweave.StackLive
