import Orochimaru.Zkmemory.MachineBytes
import Orochimaru.Zkmemory.MachineFrame

/-!
# The stack of a machine

The stack machine keeps a depth and a pointer, and leaves popped words where they are. Its
stack is the list of the words below the pointer, the last one first. Calls that write elsewhere
do not change that list, and `push` and `pop` are those of a list bounded by the maximal depth.
-/

namespace Zkmemory

open Loops

variable {S T : Nat}

/-! ## Calls on a list -/

/-- The stack after a call, its top first. -/
def Op.onStack (max : Nat) (stack : List (Uint T)) : Op S T → List (Uint T)
  | .push v => if stack.length < max then v :: stack else stack
  | .pop => stack.tail
  | _ => stack

/-- What a call on the stack returns: the new depth and the word. -/
def Op.stackResult? (max : Nat) (stack : List (Uint T)) :
    Op S T → Option (Except Error (Nat × Uint T))
  | .push v => some (if stack.length < max then .ok (stack.length + 1, v) else .error .stackOverflow)
  | .pop =>
    match stack with
    | [] => some (.error .stackUnderflow)
    | v :: rest => some (.ok (rest.length, v))
  | _ => none

/-- The stack after a sequence of calls on an empty one. -/
def stackAfter (max : Nat) (ops : List (Op S T)) : List (Uint T) :=
  ops.foldl (Op.onStack max) []

theorem stackAfter_snoc (max : Nat) (ops : List (Op S T)) (op : Op S T) :
    stackAfter max (ops ++ [op]) = op.onStack max (stackAfter max ops) := by
  simp [stackAfter, List.foldl_append]

/-- The same of a response of the machine. -/
def Response.stackResult? : Response S T → Option (Except Error (Nat × Uint T))
  | .cell _ => none
  | .stack (.error e) => some (.error e)
  | .stack (.ok (depth, c)) => some (.ok (depth.val, c.word))

namespace Op

/-- The address a call reads or writes at, apart from the stack. -/
def address? : Op S T → Option (Uint S)
  | .read a => some a
  | .write a _ => some a
  | .get register => some register.address
  | .set register _ => some register.address
  | .push _ => none
  | .pop => none

def target? : Op S T → Option (Uint S)
  | .write a _ => some a
  | .set register _ => some register.address
  | _ => none

/-- A call that writes no byte among the `n` bytes at `b`. -/
def Outside (b n : Nat) (op : Op S T) : Prop :=
  ∀ a, op.target? = some a → a.val + T ≤ b ∨ b + n ≤ a.val

/-- A call whose cells exist. -/
def InRange (op : Op S T) : Prop := ∀ a, op.address? = some a → Machine.InRange T a

end Op

namespace Machine

/-- The words of the stack lie from `b` on, and the depth and the pointer count them. -/
structure StackState (b max : Nat) (m : Machine S T) (stack : List (Uint T)) : Prop where
  running : m.Running
  bound : stack.length ≤ max
  maxStackDepth : m.maxStackDepth.val = max
  stackDepth : m.stackDepth.val = stack.length
  stackPtr : m.stackPtr.val = b + stack.length * T
  cells : ∀ below v above, stack = above ++ v :: below → ∀ x : Uint S,
    x.val = b + below.length * T → m.memory x = some v

/-- A call can panic only at the end of the clock or of the address type. -/
def CallPanic (m : Machine S T) (op : Op S T) (e : Panic) : Prop :=
  e = .arithmeticOverflow ∧ (2 ^ 64 ≤ m.timeLog.val + 2 ∨ ¬ op.InRange)

/-- What a call does to a machine with the given stack. -/
structure AfterCall (b max : Nat) (m : Machine S T) (stack : List (Uint T)) (op : Op S T)
    (r : Response S T × Machine S T) : Prop where
  result : r.1.stackResult? = op.stackResult? max stack
  state : r.2.StackState b max (op.onStack max stack)
  failed : ∀ e, r.1 = .stack (.error e) → r.2 = m
  time : r.2.timeLog.val ≤ m.timeLog.val + 2

variable {b max : Nat} {m : Machine S T} {stack : List (Uint T)}

/-- An access that leaves the cells of the stack alone. -/
theorem StackState.of_touches (h : m.StackState b max stack) {m' : Machine S T}
    {cells : List (Uint S)} (hrunning : m'.Running) (htouches : m.Touches m' cells)
    (hcells : ∀ c ∈ cells, c.val < b ∨ b + max * T ≤ c.val) : m'.StackState b max stack where
  running := hrunning
  bound := h.bound
  maxStackDepth := by rw [htouches.context.maxStackDepth, h.maxStackDepth]
  stackDepth := by rw [htouches.context.stackDepth, h.stackDepth]
  stackPtr := by rw [htouches.context.stackPtr, h.stackPtr]
  cells := by
    intro below v above hstack x hx
    rw [← h.cells below v above hstack x hx]
    apply htouches.memory
    intro hmem
    have hlt : below.length < max := by
      have hbound := h.bound
      rw [hstack, List.length_append, List.length_cons] at hbound
      omega
    have hle := Nat.mul_le_mul_right T hlt
    rw [Nat.succ_mul] at hle
    have hpos := h.running.wordSized.pos
    have := hcells x hmem
    omega

/-- The cells of a write outside the stack are outside the stack. -/
theorem outside_of_near (hb : T ∣ b) (hw : m.WordSized) {a : Uint S} {n : Nat}
    (ha : a.val + T ≤ b ∨ b + n * T ≤ a.val) {cells : List (Uint S)}
    (h : m.cellAddresses a = .ok cells) : ∀ c ∈ cells, c.val < b ∨ b + n * T ≤ c.val := by
  intro c hc
  obtain ⟨hdvd, hlt, hgt⟩ := (cellAddresses_near hw h).1 c hc
  rcases ha with ha | ha
  · exact Or.inl (by omega)
  · right
    by_contra hnot
    have := add_le_of_dvd hdvd (Nat.dvd_add hb (Nat.dvd_mul_left T n)) (by omega)
    omega

/-! ## One call -/

theorem CallPanic.of_access {op : Op S T} {a : Uint S} (hop : op.address? = some a) {e : Panic}
    (h : m.AccessPanic a e) : m.CallPanic op e :=
  ⟨h.1, h.2.imp id fun hrange hop' => hrange (hop' a hop)⟩

theorem read_afterCall (h : m.StackState b max stack) {op : Op S T} {a : Uint S}
    (hop : op.address? = some a) (hresult : op.stackResult? max stack = none)
    (hstack : op.onStack max stack = stack) (hexec : m.exec op = do
      let (c, m) ← m.read a
      .ok (.cell c, m)) :
    Ends (m.CallPanic op) (m.AfterCall b max stack op) (m.exec op) := by
  rw [hexec]
  refine ((read_access h.running a).weaken fun _ => CallPanic.of_access hop).bind ?_
  rintro ⟨c, m'⟩ ⟨hrunning, htouches⟩
  exact {
    result := hresult.symm
    state := hstack.symm ▸ h.of_touches hrunning htouches (by simp)
    failed := by simp
    time := htouches.time }

theorem write_afterCall (h : m.StackState b max stack) (hb : T ∣ b) {op : Op S T} {a : Uint S}
    {v : Uint T} (hop : op.address? = some a) (htarget : op.target? = some a)
    (hout : op.Outside b (max * T)) (hresult : op.stackResult? max stack = none)
    (hstack : op.onStack max stack = stack) (hexec : m.exec op = do
      let (c, m) ← m.write a v
      .ok (.cell c, m)) :
    Ends (m.CallPanic op) (m.AfterCall b max stack op) (m.exec op) := by
  rw [hexec]
  refine ((write_access h.running a v).weaken fun _ => CallPanic.of_access hop).bind ?_
  rintro ⟨c, m'⟩ ⟨hrunning, cells, hcells, htouches⟩
  have houtside := outside_of_near hb h.running.wordSized (hout a htarget) hcells
  exact {
    result := hresult.symm
    state := hstack.symm ▸ h.of_touches hrunning htouches houtside
    failed := by simp
    time := htouches.time }

theorem StackState.aligned_ptr (h : m.StackState b max stack) (hb : T ∣ b) : T ∣ m.stackPtr.val := by
  rw [h.stackPtr]
  exact Nat.dvd_add hb (Nat.dvd_mul_left T _)

/-- A word on top of the others, where the pointer was. -/
theorem StackState.cons (h : m.StackState b max stack) {v : Uint T} {m' : Machine S T}
    (hlt : stack.length < max) (hrunning : m'.Running)
    (hmax : m'.maxStackDepth = m.maxStackDepth) (hdepth : m'.stackDepth.val = stack.length + 1)
    (hptr : m'.stackPtr.val = m.stackPtr.val + T)
    (hmemory : m'.memory = Function.update m.memory m.stackPtr (some v)) :
    m'.StackState b max (v :: stack) where
  running := hrunning
  bound := hlt
  maxStackDepth := by rw [hmax, h.maxStackDepth]
  stackDepth := hdepth
  stackPtr := by
    rw [hptr, h.stackPtr, List.length_cons, Nat.succ_mul]
    omega
  cells := by
    intro below u above hstack x hx
    rw [hmemory]
    cases above with
    | nil =>
      obtain ⟨rfl, rfl⟩ := List.cons.inj hstack
      have hxp : x = m.stackPtr := Uint.ext (hx.trans h.stackPtr.symm)
      rw [hxp, Function.update_self]
    | cons w above =>
      have hrest : stack = above ++ u :: below := (List.cons.inj hstack).2
      have hbelow : below.length < stack.length := by
        rw [hrest, List.length_append, List.length_cons]
        omega
      have hle := Nat.mul_le_mul_right T hbelow
      rw [Nat.succ_mul] at hle
      have hpos := hrunning.wordSized.pos
      have hptrValue := h.stackPtr
      have hne : x ≠ m.stackPtr := by
        rintro rfl
        omega
      rw [Function.update_of_ne hne, h.cells below u above hrest x hx]

/-- The stack without its top. -/
theorem StackState.tail {v : Uint T} {rest : List (Uint T)} (h : m.StackState b max (v :: rest))
    {m' : Machine S T} (hrunning : m'.Running) (hmax : m'.maxStackDepth = m.maxStackDepth)
    (hdepth : m'.stackDepth.val = rest.length) (hptr : m'.stackPtr.val = b + rest.length * T)
    (hmemory : m'.memory = m.memory) : m'.StackState b max rest where
  running := hrunning
  bound := Nat.le_of_succ_le h.bound
  maxStackDepth := by rw [hmax, h.maxStackDepth]
  stackDepth := hdepth
  stackPtr := hptr
  cells := by
    intro below u above hstack x hx
    rw [hmemory]
    exact h.cells below u (v :: above) (by rw [hstack, List.cons_append]) x hx

theorem push_afterCall (h : m.StackState b max stack) (hb : T ∣ b)
    (hfit : b + (max + 1) * T < 256 ^ S) (v : Uint T) :
    Ends (m.CallPanic (.push v)) (m.AfterCall b max stack (.push v)) (m.exec (.push v)) := by
  have hmax := h.maxStackDepth
  have hdepth := h.stackDepth
  have hbound := h.bound
  by_cases hfull : m.stackDepth = m.maxStackDepth
  · have hlen : ¬ stack.length < max := by
      rw [← hdepth, ← hmax, hfull]
      exact lt_irrefl _
    have hexec : m.exec (.push v) = .ok (.stack (.error .stackOverflow), m) := by
      rw [exec, push, if_pos hfull]
      rfl
    rw [hexec]
    exact {
      result := by simp [Response.stackResult?, Op.stackResult?, hlen]
      state := by simpa [Op.onStack, hlen] using h
      failed := fun _ _ => rfl
      time := Nat.le_add_right _ _ }
  · have hlt : stack.length < max := by
      rw [← hdepth]
      refine lt_of_le_of_ne (hdepth ▸ hbound) fun he => hfull (Uint.ext (he.trans hmax.symm))
    obtain ⟨depth, hadd, hdepthValue⟩ : ∃ z, m.stackDepth.add (.ofNat 1) = .ok z ∧
        z.val = stack.length + 1 := by
      have hmaxLt := m.maxStackDepth.isLt
      refine ⟨⟨stack.length + 1, by omega⟩, Uint.add_ok.mpr ?_, rfl⟩
      rw [hdepth]
      rfl
    obtain ⟨next, hnext, hnextValue⟩ : ∃ z, m.stackPtr.add m.wordSize = .ok z ∧
        z.val = m.stackPtr.val + T := by
      have hle : (stack.length + 1) * T ≤ (max + 1) * T := Nat.mul_le_mul_right T (by omega)
      have hptr := h.stackPtr
      rw [Nat.succ_mul] at hle
      refine ⟨⟨m.stackPtr.val + T, by omega⟩, Uint.add_ok.mpr ?_, rfl⟩
      rw [h.running.wordSized.wordSize]
    let moved : Machine S T := { m with stackDepth := depth, stackPtr := next }
    have hmoved : moved.Running := h.running.setStack depth next
    have hdvd := h.aligned_ptr hb
    have hexec : m.exec (.push v) = (do
        let m' ← moved.cellWrite m.stackPtr v
        .ok (.stack (.ok (depth, .singleCell .write m.stackPtr v)), m')) := by
      have hwrite := write_aligned hmoved.wordSized (Nat.mod_eq_zero_of_dvd hdvd) v
      simp only [exec, push, hfull, ↓reduceIte, hadd, ok_bind, hnext]
      rw [hwrite]
      simp only [bind_assoc, ok_bind]
    have hcell : moved.wordSize.val ∣ m.stackPtr.val := h.running.wordSized.wordSize.symm ▸ hdvd
    rw [hexec]
    refine (((cellWrite_ends hmoved.invariant v hcell).and_ok fun _ => cellWrite_ok).weaken
      fun e he => ⟨he.1, Or.inl (he.2.trans (Nat.le_succ _))⟩).bind ?_
    rintro m' ⟨⟨hinv, hword, -⟩, hcontext, hmemory, htime⟩
    exact {
      result := by
        simp [Response.stackResult?, Op.stackResult?, hlt, hdepthValue, CellInteraction.word]
      state := by
        rw [Op.onStack, if_pos hlt]
        exact h.cons hlt (hmoved.of_kept hinv hword) hcontext.maxStackDepth
          (by rw [hcontext.stackDepth, hdepthValue]) (by rw [hcontext.stackPtr, hnextValue]) hmemory
      failed := by simp
      time := htime.trans_le (Nat.le_succ _) }

theorem pop_afterCall (h : m.StackState b max stack) (hb : T ∣ b) :
    Ends (m.CallPanic .pop) (m.AfterCall b max stack .pop) (m.exec .pop) := by
  have hdepth := h.stackDepth
  cases stack with
  | nil =>
    have hexec : m.exec .pop = .ok (.stack (.error .stackUnderflow), m) := by
      rw [exec, pop, if_pos (hdepth.trans List.length_nil)]
      rfl
    rw [hexec]
    exact {
      result := rfl
      state := h
      failed := fun _ _ => rfl
      time := Nat.le_add_right _ _ }
  | cons v rest =>
    have hptr := h.stackPtr
    rw [List.length_cons] at hdepth hptr
    rw [Nat.succ_mul] at hptr
    obtain ⟨depth, hsub, hdepthValue⟩ : ∃ z, m.stackDepth.sub (.ofNat 1) = .ok z ∧
        z.val = rest.length := by
      have hlt := m.stackDepth.isLt
      have hone : (Uint.ofNat 1 : U64).val = 1 := by decide
      exact ⟨⟨rest.length, by omega⟩, Uint.sub_ok.mpr (by rw [hone]; simp only; omega), rfl⟩
    obtain ⟨top, htop, htopValue⟩ : ∃ z, m.stackPtr.sub m.wordSize = .ok z ∧
        z.val = b + rest.length * T := by
      have hlt := m.stackPtr.isLt
      refine ⟨⟨b + rest.length * T, by omega⟩, Uint.sub_ok.mpr ?_, rfl⟩
      rw [h.running.wordSized.wordSize]
      simp only
      omega
    let moved : Machine S T := { m with stackDepth := depth, stackPtr := top }
    have hmoved : moved.Running := h.running.setStack depth top
    have hdvd : T ∣ top.val := htopValue ▸ Nat.dvd_add hb (Nat.dvd_mul_left T _)
    have hvalue : moved.dummyRead top = v := by
      rw [dummyRead, h.cells rest v [] rfl top htopValue]
      rfl
    have hexec : m.exec .pop = (do
        let m' ← moved.cellRead top
        .ok (.stack (.ok (depth, .singleCell .read top v)), m')) := by
      have hread := read_aligned hmoved.wordSized (Nat.mod_eq_zero_of_dvd hdvd)
      have hpos : m.stackDepth.val ≠ 0 := by omega
      simp only [exec, pop, hpos, ↓reduceIte, hsub, ok_bind, htop]
      rw [hread, hvalue]
      simp only [bind_assoc, ok_bind]
    have hcell : moved.wordSize.val ∣ top.val := h.running.wordSized.wordSize.symm ▸ hdvd
    rw [hexec]
    refine (((cellRead_ends hmoved.invariant hcell rfl).and_ok fun _ => emit_ok).weaken
      fun e he => ⟨he.1, Or.inl (he.2.trans (Nat.le_succ _))⟩).bind ?_
    rintro m' ⟨⟨hinv, hword, -⟩, hcontext, hmemory, htime⟩
    exact {
      result := by simp [Response.stackResult?, Op.stackResult?, hdepthValue, CellInteraction.word]
      state := h.tail (hmoved.of_kept hinv hword) hcontext.maxStackDepth
        (by rw [hcontext.stackDepth, hdepthValue]) (by rw [hcontext.stackPtr, htopValue]) hmemory
      failed := by simp
      time := htime.trans_le (Nat.le_succ _) }

theorem exec_afterCall (h : m.StackState b max stack) (hb : T ∣ b)
    (hfit : b + (max + 1) * T < 256 ^ S) {op : Op S T} (hop : op.Outside b (max * T)) :
    Ends (m.CallPanic op) (m.AfterCall b max stack op) (m.exec op) := by
  cases op with
  | read a => exact read_afterCall h rfl rfl rfl rfl
  | write a v => exact write_afterCall h hb rfl rfl hop rfl rfl rfl
  | push v => exact push_afterCall h hb hfit v
  | pop => exact pop_afterCall h hb
  | get register => exact read_afterCall h rfl rfl rfl rfl
  | set register v => exact write_afterCall h hb rfl rfl hop rfl rfl rfl

/-! ## Runs -/

/-- A run can panic only at the end of the clock or of the address type. -/
def RunPanic (m : Machine S T) (ops : List (Op S T)) (e : Panic) : Prop :=
  e = .arithmeticOverflow ∧
    (2 ^ 64 ≤ m.timeLog.val + 2 * ops.length ∨ ∃ op ∈ ops, ¬ op.InRange)

theorem RunPanic.of_call {m m₁ : Machine S T} {ops : List (Op S T)} {op : Op S T} {e : Panic}
    (htime : m₁.timeLog.val ≤ m.timeLog.val + 2 * ops.length) (h : m₁.CallPanic op e) :
    m.RunPanic (ops ++ [op]) e := by
  refine ⟨h.1, h.2.imp (fun hclock => ?_) fun hrange => ⟨op, by simp, hrange⟩⟩
  rw [List.length_append, List.length_singleton]
  omega

theorem RunPanic.snoc {m : Machine S T} {ops : List (Op S T)} {e : Panic} (h : m.RunPanic ops e)
    (op : Op S T) : m.RunPanic (ops ++ [op]) e := by
  refine ⟨h.1, h.2.imp (fun hclock => ?_) ?_⟩
  · rw [List.length_append, List.length_singleton]
    omega
  · rintro ⟨o, ho, hrange⟩
    exact ⟨o, List.mem_append_left _ ho, hrange⟩

/-- The invariant of a run, by induction from its end. -/
theorem run_stackState (h : m.StackState b max []) (hb : T ∣ b)
    (hfit : b + (max + 1) * T < 256 ^ S) (ops : List (Op S T))
    (hout : ∀ op ∈ ops, op.Outside b (max * T)) :
    Ends (m.RunPanic ops) (fun r => r.2.StackState b max (stackAfter max ops) ∧
      r.2.timeLog.val ≤ m.timeLog.val + 2 * ops.length) (m.run ops) := by
  induction ops using List.reverseRecOn with
  | nil => exact ⟨h, le_rfl⟩
  | append_singleton ops op ih =>
    rw [List.forall_mem_append, List.forall_mem_singleton] at hout
    rw [run_snoc]
    refine ((ih hout.1).weaken fun _ he => he.snoc op).bind ?_
    rintro ⟨rs, m₁⟩ ⟨hstate, htime⟩
    refine ((exec_afterCall hstate hb hfit hout.2).weaken fun _ => RunPanic.of_call htime).bind ?_
    rintro ⟨r, m₂⟩ hafter
    have hcall := hafter.time
    rw [stackAfter_snoc, List.length_append, List.length_singleton]
    exact ⟨hafter.state, by simp only at hcall htime ⊢; omega⟩

/-- A machine with an empty stack at an aligned pointer, in any run that writes elsewhere: its
stack is the bounded list, and so is what the next call makes of it. -/
theorem run_refines_stack {m : Machine S T} (h : m.Running) (hdepth : m.stackDepth.val = 0)
    (haligned : m.wordSize.val ∣ m.stackPtr.val)
    (hfit : m.stackPtr.val + (m.maxStackDepth.val + 1) * m.wordSize.val < 256 ^ S)
    (ops : List (Op S T)) (op : Op S T)
    (hout : ∀ o ∈ ops ++ [op], o.Outside m.stackPtr.val (m.maxStackDepth.val * T)) :
    Ends (m.RunPanic ops) (fun r =>
      let stack := stackAfter m.maxStackDepth.val ops
      r.2.StackState m.stackPtr.val m.maxStackDepth.val stack ∧
        Ends (r.2.CallPanic op) (r.2.AfterCall m.stackPtr.val m.maxStackDepth.val stack op)
          (r.2.exec op)) (m.run ops) := by
  rw [h.wordSized.wordSize] at haligned hfit
  rw [List.forall_mem_append, List.forall_mem_singleton] at hout
  have hempty : m.StackState m.stackPtr.val m.maxStackDepth.val [] := {
    running := h
    bound := Nat.zero_le _
    maxStackDepth := rfl
    stackDepth := hdepth
    stackPtr := by simp
    cells := by simp }
  refine (run_stackState hempty haligned hfit ops hout.1).mono ?_
  rintro ⟨rs, m₁⟩ ⟨hstate, -⟩
  exact ⟨hstate, exec_afterCall hstate haligned hfit hout.2⟩

/-- A full stack of two words at address 4, and writes below and above it. -/
def stackOps : List (Op 2 2) :=
  [.push (.ofNat 7), .write (.ofNat 1) (.ofNat 258), .push (.ofNat 9), .push (.ofNat 11),
    .set ⟨0, .ofNat 8⟩ (.ofNat 3), .pop, .read (.ofNat 5)]

theorem run_refines_stack_two :
    let m : Machine 2 2 := .empty (.ofNat 2) (.ofNat 2) (.ofNat 4)
    stackAfter 2 stackOps = [.ofNat 7] ∧
    Ends (m.RunPanic stackOps) (fun r => r.2.StackState 4 2 (stackAfter 2 stackOps) ∧
      Ends (r.2.CallPanic .pop) (r.2.AfterCall 4 2 (stackAfter 2 stackOps) .pop) (r.2.exec .pop))
      (m.run stackOps) := by
  refine ⟨by decide, run_refines_stack (m := .empty (.ofNat 2) (.ofNat 2) (.ofNat 4))
    ⟨⟨by decide, by decide, by decide⟩, (empty_initial _ _ _).traceInvariant⟩ rfl (by decide)
    (by decide) stackOps .pop ?_⟩
  intro op hop a ha
  simp only [stackOps, List.cons_append, List.nil_append, List.mem_cons, List.not_mem_nil,
    or_false] at hop
  rcases hop with rfl | rfl | rfl | rfl | rfl | rfl | rfl | rfl
  case inr.inl => cases ha; left; decide
  case inr.inr.inr.inr.inl => cases ha; right; decide
  all_goals cases ha

end Machine

end Zkmemory
