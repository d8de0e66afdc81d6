import Clir.Run.Steps

set_option autoImplicit false

/-! # Runs of the interpreter

A state is sound if its frames are a chain of calls: each frame is at an instruction of its
function, the top one anywhere and the others at the call of the function above. One round of the
loop keeps a state sound (`Sound.advance`), so every state of a run is, and the reasons to stop are
those of single steps.
-/

namespace Clir.Interpreter

open Relation

variable {D : Type} {V : Values D}

/-! ## Chains of calls -/

/-- The bytes of the stack slots of frames. -/
def stackSize (frames : List (Frame D)) : ℕ :=
  (frames.map fun fr => fixedStackSize fr.function).sum

@[simp] theorem stackSize_cons (fr : Frame D) (frames : List (Frame D)) :
    stackSize (fr :: frames) = fixedStackSize fr.function + stackSize frames := by
  simp [stackSize]

theorem stackSize_le {frames : List (Frame D)} {size : ℕ}
    (h : ∀ fr ∈ frames, fixedStackSize fr.function ≤ size) :
    stackSize frames ≤ size * frames.length := by
  induction frames with
  | nil => exact Nat.zero_le _
  | cons fr frames ih =>
      obtain ⟨hfr, hrest⟩ := List.forall_mem_cons.mp h
      have := ih hrest
      rw [stackSize_cons, List.length_cons, Nat.mul_succ]
      omega

/-- The frame is at an instruction of a function of the program. Its memory is above that of the
frames `below`. -/
def Frame.Runs (V : Values D) (program : List Function) (below : List (Frame D))
    (fr : Frame D) : Prop :=
  fr.function ∈ program ∧ ∃ b before i after, fr.At V (stackSize below) b before i after

/-- The frame is at a call, with results for what the callee returns. -/
def Frame.Awaits (rank : Function → ℕ) (fr : Frame D) (callee : Function) : Prop :=
  ∃ i r args, fr.inst = some i ∧ fr.function.instData i = .call r args ∧
    (fr.function.dfg.results i).length = callee.signature.returns.length ∧
      rank callee < rank fr.function

/-- The frames of a run, the top one first. -/
inductive Live (V : Values D) (program : List Function) (rank : Function → ℕ) :
    List (Frame D) → Prop
  | main {fr : Frame D} (h : fr.Runs V program []) : Live V program rank [fr]
  | called {fr caller : Frame D} {rest : List (Frame D)} (h : fr.Runs V program (caller :: rest))
      (hcall : caller.Awaits rank fr.function) (hrest : Live V program rank (caller :: rest)) :
      Live V program rank (fr :: caller :: rest)

namespace Live

variable {program : List Function} {rank : Function → ℕ} {depth : ℕ} {fr fr' : Frame D}
  {rest : List (Frame D)}

theorem runs (h : Live V program rank (fr :: rest)) : fr.Runs V program rest := by
  cases h with
  | main h => exact h
  | called h _ _ => exact h

/-- The top frame goes on in its function. -/
theorem replace (h : Live V program rank (fr :: rest)) (hfr : fr'.Runs V program rest)
    (hfun : fr'.function = fr.function) : Live V program rank (fr' :: rest) := by
  cases h with
  | main _ => exact .main hfr
  | called _ hcall hrest => exact .called hfr (hfun ▸ hcall) hrest

theorem mem_program {frames : List (Frame D)} (h : Live V program rank frames) :
    ∀ fr ∈ frames, fr.function ∈ program := by
  induction h with
  | main h => simpa using h.1
  | called h _ _ ih => exact List.forall_mem_cons.mpr ⟨h.1, ih⟩

/-- Ranks go down along calls, which bounds the number of frames. -/
theorem rank_add_le (hlinked : Linked program rank depth) {frames : List (Frame D)}
    (h : Live V program rank frames) :
    ∀ fr rest, frames = fr :: rest → rank fr.function + rest.length ≤ depth := by
  induction h with
  | main h =>
      rintro _ _ ⟨⟩
      exact hlinked.bounded _ h.1
  | called h hcall _ ih =>
      rintro _ _ ⟨⟩
      obtain ⟨-, -, -, -, -, -, hrank⟩ := hcall
      have := ih _ _ rfl
      rw [List.length_cons]
      omega

theorem length_le (hlinked : Linked program rank depth) {frames : List (Frame D)}
    (h : Live V program rank frames) : frames.length ≤ depth + 1 := by
  cases frames with
  | nil => exact Nat.zero_le _
  | cons fr rest =>
      have := h.rank_add_le hlinked fr rest rfl
      rw [List.length_cons]
      omega

end Live

/-! ## States -/

/-- The frames are a chain of calls, and the stack has the slots of all of them. -/
structure Sound (V : Values D) (program : List Function) (rank : Function → ℕ) (st : State D) :
    Prop where
  live : Live V program rank st.frames
  frameOffset : st.frameOffset = stackSize st.frames.tail
  stack : st.stack.length = stackSize st.frames

/-- All accesses are inside the slots they are addressed through, and there is room for all slots
in the lowest part of the address space. -/
structure Confined (program : List Function) (depth : ℕ) : Prop where
  access : ∀ f ∈ program, ∀ b, ∀ i ∈ f.layout.insts b,
    (f.instData i).opcode.accessesMemory = true →
      ∃ a slot offset, f.access i = some a ∧ slot < f.sizedStackSlots.len ∧
        f.Resolves a.address slot offset ∧
          offset + a.offset + a.width ≤ f.sizedStackSlots.get slot
  room : ∃ size, (∀ f ∈ program, fixedStackSize f ≤ size) ∧ size * (depth + 1) < 2 ^ 30

/-- What one round does to a state: it stays sound, and if accesses are confined then the bytes
below the frame stay. -/
structure Advanced (V : Values D) (program : List Function) (rank : Function → ℕ)
    (confined : Prop) (st st' : State D) : Prop where
  sound : Sound V program rank st'
  below : confined → st'.stack.take st.frameOffset = st.stack.take st.frameOffset
  frames : st'.frames.tail = st.frames.tail ∨ st'.frames.tail = st.frames ∨
    st'.frames.tail = st.frames.tail.tail

section Rounds

variable {program : List Function} {rank : Function → ℕ} {depth : ℕ} {confined : Prop}
  {st : State D} {fr : Frame D} {rest : List (Frame D)} {E : Stop → Prop}

theorem Sound.room (h : Sound V program rank st) (hlinked : Linked program rank depth)
    (hconfined : Confined program depth) : st.stack.length < 2 ^ 30 := by
  obtain ⟨size, hsize, hroom⟩ := hconfined.room
  have hle : stackSize st.frames ≤ size * st.frames.length :=
    stackSize_le fun fr hfr => hsize _ (h.live.mem_program fr hfr)
  have hlen : size * st.frames.length ≤ size * (depth + 1) :=
    Nat.mul_le_mul_left size (h.live.length_le hlinked)
  rw [h.stack]
  omega

/-- The top frame can make a step. -/
theorem Sound.now (h : Sound V program rank st) (hlinked : Linked program rank depth)
    (hconfined : confined → Confined program depth) (hframes : st.frames = fr :: rest) :
    fr.function ∈ program ∧ ∃ b before i after, Now V confined st fr b before i after := by
  have hlive := h.live
  rw [hframes] at hlive
  obtain ⟨hf, b, before, i, after, hat⟩ := hlive.runs
  have hoffset : st.frameOffset = stackSize rest := by rw [h.frameOffset, hframes, List.tail_cons]
  have hstack : st.stack.length = fixedStackSize fr.function + stackSize rest := by
    rw [h.stack, hframes, stackSize_cons]
  refine ⟨hf, b, before, i, after, hlinked.executable _ hf, hoffset ▸ hat, by omega,
    fun hc => h.room hlinked (hconfined hc), fun hc => (hconfined hc).access _ hf b i hat.mem⟩

/-! ## Calls and returns -/

/-- A function is entered at its first instruction. -/
theorem call_spec {f : Function} {args : List D} (hexec : f.Executable) (hf : f ∈ program)
    (hargs : args.length = f.signature.params.length) :
    Attempts E (call st f args) fun st' => ∃ fr : Frame D, fr.function = f ∧
      fr.Runs V program st.frames ∧ st'.frames = fr :: st.frames ∧
        st'.frameOffset = (st.pushFrame f).frameOffset ∧ st'.stack = (st.pushFrame f).stack := by
  unfold call
  rw [hexec.head_eq]
  refine .bind (Frame.setAll_spec (hexec.params.trans hargs.symm) fun v hv => hexec.params_lt hv)
    fun fr' hs => .pure ⟨fr'.goto (f.layout.firstInst f.entryBlock), hs.function,
      ⟨?_, f.entryBlock, [], ?_⟩, rfl, rfl, rfl⟩
  · show fr'.function ∈ program
    rw [hs.function]
    exact hf
  · exact Frame.at_entry hexec hs

theorem pushFrame_stack_length (st : State D) (f : Function) :
    (st.pushFrame f).stack.length = fixedStackSize f + st.stack.length := by
  simp [State.pushFrame, Nat.add_comm]

theorem Sound.pushFrame_frameOffset (h : Sound V program rank st) (f : Function) :
    (st.pushFrame f).frameOffset = stackSize st.frames := by
  have hoffset := h.frameOffset
  unfold State.pushFrame
  cases hframes : st.frames with
  | nil => rw [hoffset, hframes]; rfl
  | cons fr rest =>
      rw [hframes, List.tail_cons] at hoffset
      rw [stackSize_cons, hoffset]
      exact Nat.add_comm _ _

/-- The top frame waits, and the function that it calls runs. -/
theorem Sound.call (confined : Prop) (h : Sound V program rank st)
    (hlinked : Linked program rank depth) (hframes : st.frames = fr :: rest) {callee : Function}
    {args : List D} (hcallee : callee ∈ program) (hargs : args.length = callee.signature.params.length)
    (hawaits : fr.Awaits rank callee) :
    Attempts E (call st callee args) (Advanced V program rank confined st) := by
  refine (call_spec (V := V) (hlinked.executable _ hcallee) hcallee hargs).mono ?_
  rintro st' ⟨fr', rfl, hruns, hframes', hoffset', hstack'⟩
  refine ⟨⟨?_, ?_, ?_⟩, fun _ => ?_, .inr (.inl (by rw [hframes', List.tail_cons]))⟩
  · have hlive := h.live
    rw [hframes] at hlive hruns hframes'
    rw [hframes']
    exact .called hruns hawaits hlive
  · rw [hoffset', hframes', h.pushFrame_frameOffset, List.tail_cons]
  · rw [hstack', hframes', pushFrame_stack_length, stackSize_cons, h.stack]
  · rw [hstack']
    refine List.take_append_of_le_length ?_
    rw [h.stack, h.frameOffset, hframes, stackSize_cons]
    exact Nat.le_add_left _ _

theorem popFrame_eq {caller : Frame D} (hframes : st.frames = fr :: caller :: rest)
    (hoffset : st.frameOffset = stackSize (caller :: rest))
    (hstack : st.stack.length = stackSize (fr :: caller :: rest)) :
    st.popFrame = ⟨caller :: rest, stackSize rest, st.stack.take (stackSize (caller :: rest)),
      st.pinnedReg⟩ := by
  rw [stackSize_cons] at hstack
  have hrest : st.stack.length - fixedStackSize fr.function = stackSize (caller :: rest) := by
    omega
  have hbelow : st.frameOffset - fixedStackSize caller.function = stackSize rest := by
    rw [hoffset, stackSize_cons, Nat.add_sub_cancel_left]
  simp only [State.popFrame, hframes, hrest, hbelow]

/-- The top frame goes on at another instruction of its function. -/
theorem Sound.goes_on (h : Sound V program rank st) (hframes : st.frames = fr :: rest)
    {st' : State D} {fr' : Frame D} (hst : Accessed confined st st')
    (hruns : fr'.Runs V program rest) (hfun : fr'.function = fr.function) :
    Advanced V program rank confined st { st' with frames := fr' :: rest } where
  sound := by
    have hlive := h.live
    have hoffset := h.frameOffset
    have hstack := h.stack
    rw [hframes] at hlive hoffset hstack
    refine ⟨hlive.replace hruns hfun, hst.frameOffset.trans hoffset, ?_⟩
    show st'.stack.length = stackSize (fr' :: rest)
    rw [hst.length, hstack, stackSize_cons, stackSize_cons, hfun]
  below := hst.below
  frames := .inl (by rw [hframes]; rfl)

/-- A function returns to its caller, or from the program. -/
theorem Sound.return_ (confined : Prop) (h : Sound V program rank st)
    (hlinked : Linked program rank depth) (hframes : st.frames = fr :: rest) {values : List D}
    (hvalues : values.length = fr.function.signature.returns.length) :
    Attempts E (return_ st values) fun s => ∀ st', s = .running st' →
      Advanced V program rank confined st st' := by
  have hlive := h.live
  have hoffset := h.frameOffset
  have hstack := h.stack
  rw [hframes] at hlive hoffset hstack
  cases hlive with
  | main hfr =>
      unfold Interpreter.return_ State.popFrame
      rw [hframes]
      refine .ok fun st' heq => ?_
      cases heq
  | @called _ caller rest hfr hcall hrest =>
      obtain ⟨i, r, args, hinst, hdata, hres, -⟩ := hcall
      obtain ⟨hf, b, before, i', after, hat⟩ := hrest.runs
      obtain rfl : i' = i := Option.some.inj (hat.inst.symm.trans hinst)
      have hexec := hlinked.executable _ hf
      -- the call is not the last instruction of its block
      obtain ⟨j, after, rfl⟩ : ∃ j after', after = j :: after' := by
        refine List.exists_cons_of_ne_nil fun hnil => ?_
        have hleaves := (hexec.leaves_iff hat.split).mpr hnil
        rw [hdata] at hleaves
        cases hleaves
      have hpop := popFrame_eq hframes hoffset hstack
      unfold Interpreter.return_
      rw [hpop]
      dsimp only
      rw [hinst]
      refine .bind (Frame.setAll_spec (hres.trans hvalues.symm) fun v hv => hexec.results_lt hv)
        fun caller' hs => .pure ?_
      rintro _ ⟨⟩
      have hfun : caller'.function = caller.function := hs.function
      have hnext := hat.next hexec hs fun slot offset hstackAddr => by
        rw [hdata] at hstackAddr
        cases hstackAddr
      refine ⟨⟨hrest.replace ⟨hfun.symm ▸ hf, _, _, _, _, hnext⟩ hfun, rfl, ?_⟩, fun _ => ?_, ?_⟩
      · show (st.stack.take (stackSize (caller :: rest))).length = _
        rw [List.length_take, hstack]
        simp only [stackSize_cons, Frame.goto, hfun]
        omega
      · show (st.stack.take (stackSize (caller :: rest))).take st.frameOffset = _
        rw [List.take_take, hoffset, List.tail_cons, min_self]
      · exact .inr (.inr (by rw [hframes]; rfl))

/-! ## Rounds -/

theorem Sound.accessed (h : Sound V program rank st) {st₁ : State D}
    (hst : Accessed confined st st₁) : Sound V program rank st₁ where
  live := hst.frames ▸ h.live
  frameOffset := by rw [hst.frameOffset, hst.frames, h.frameOffset]
  stack := by rw [hst.length, hst.frames, h.stack]

theorem Accessed.advanced {st₁ st' : State D} (hst : Accessed confined st st₁)
    (h : Advanced V program rank confined st₁ st') : Advanced V program rank confined st st' where
  sound := h.sound
  below hc := by
    have hbelow := h.below hc
    rw [hst.frameOffset] at hbelow
    exact hbelow.trans (hst.below hc)
  frames := hst.frames ▸ h.frames

/-- **One round of the loop.** -/
theorem Sound.advance (h : Sound V program rank st) (hlinked : Linked program rank depth)
    (hconfined : confined → Confined program depth) :
    Attempts (Stop.Tolerated program confined) (advance V program st) fun s =>
      ∀ st', s = .running st' → Advanced V program rank confined st st' := by
  obtain ⟨fr, rest, hframes⟩ : ∃ fr rest, st.frames = fr :: rest := by
    cases hframes : st.frames with
    | nil =>
        have hlive := h.live
        rw [hframes] at hlive
        cases hlive
    | cons fr rest => exact ⟨fr, rest, rfl⟩
  obtain ⟨hf, b, before, i, after, hnow⟩ := h.now hlinked hconfined hframes
  have hexec := hnow.executable
  have hplace := hnow.place
  have hrest : st.frameOffset = stackSize rest := by rw [h.frameOffset, hframes, List.tail_cons]
  -- an instruction that does not leave the block is followed by another one
  have hnext : (fr.function.instData i).leaves = false → ∃ j after', after = j :: after' := by
    intro hleaves
    refine List.exists_cons_of_ne_nil fun hnil => ?_
    rw [(hexec.leaves_iff hplace.split).mpr hnil] at hleaves
    cases hleaves
  unfold Interpreter.advance
  rw [hframes]
  dsimp only
  rw [hplace.inst]
  refine .bind (hnow.step hlinked hf) ?_
  rintro ⟨flow, st₁⟩ ⟨hstep, hst⟩
  dsimp only at hstep hst
  cases hstep with
  | assign values hleaves hlen haddr =>
      obtain ⟨j, after, rfl⟩ := hnext hleaves
      refine .bind (Frame.setAll_spec hlen fun v hv => hexec.results_lt hv) fun fr' hs => .pure ?_
      rintro _ ⟨⟩
      have hat := hplace.next hexec hs haddr
      rw [hrest] at hat
      exact h.goes_on hframes hst ⟨hs.function.symm ▸ hf, _, _, _, _, hat⟩ hs.function
  | continue_ hleaves hres haddr =>
      obtain ⟨j, after, rfl⟩ := hnext hleaves
      refine .pure ?_
      rintro _ ⟨⟩
      have hat := hplace.next hexec (hres ▸ Frame.Sets.refl fr) fun slot offset hdata =>
        absurd hdata (haddr slot offset)
      rw [hrest] at hat
      exact h.goes_on hframes hst ⟨hf, _, _, _, _, hat⟩ rfl
  | continueAt c args hc hlen =>
      obtain ⟨hblock, hargs⟩ := hexec.passes b i hplace.mem c hc
      refine .bind (Frame.setAll_spec (hargs.symm.trans hlen.symm) fun v hv => hexec.params_lt hv)
        fun fr' hs => .pure ?_
      rintro _ ⟨⟩
      obtain ⟨rfl, hedge, hres⟩ := hexec.of_destination hplace.split hc
      obtain ⟨j, after, hat⟩ := hplace.branch hexec hedge hblock hres hs
      rw [hrest] at hat
      exact h.goes_on hframes hst ⟨hs.function.symm ▸ hf, _, _, _, _, hat⟩ hs.function
  | call callee args r vs hdata hcallee hlen hres hrank =>
      have hawaits : fr.Awaits rank callee := ⟨i, r, vs, hplace.inst, hdata, hres, hrank⟩
      refine .bind (Sound.call confined (h.accessed hst) hlinked (hst.frames.trans hframes) hcallee
        hlen hawaits) fun st' hst' => .pure ?_
      rintro _ ⟨⟩
      exact hst.advanced hst'
  | returned values hlen =>
      refine (Sound.return_ confined (h.accessed hst) hlinked (hst.frames.trans hframes)
        hlen).mono ?_
      intro s hs st' heq
      exact hst.advanced (hs st' heq)

/-! ## Runs -/

/-- **Every state of a run is sound.** -/
theorem Sound.run (h : Sound V program rank st) (hlinked : Linked program rank depth)
    (hconfined : confined → Confined program depth) (fuel : ℕ) :
    Attempts (Stop.Tolerated program confined) (run V program fuel st) fun s =>
      ∀ st', s = .running st' → Sound V program rank st' := by
  induction fuel generalizing st with
  | zero =>
      refine .ok ?_
      rintro _ ⟨⟩
      exact h
  | succ fuel ih =>
      unfold Interpreter.run
      refine .bind (h.advance hlinked hconfined) fun s hs => ?_
      cases s with
      | running st' => exact ih (hs st' rfl).sound
      | returned values =>
          refine .pure ?_
          rintro _ ⟨⟩

theorem callByName_spec (hlinked : Linked program rank depth)
    (hconfined : confined → Confined program depth) {f : Function} (hf : f ∈ program)
    {args : List D} (hargs : args.length = f.signature.params.length) (pinnedReg : D) (fuel : ℕ) :
    Attempts (Stop.Tolerated program confined) (callByName V program f.name args pinnedReg fuel)
      fun s => ∀ st', s = .running st' → Sound V program rank st' := by
  unfold callByName
  rw [hlinked.find_eq hf]
  refine .bind (call_spec (V := V) (hlinked.executable _ hf) hf hargs) ?_
  rintro st ⟨fr, hfun, hruns, hframes, hoffset, hstack⟩
  refine Sound.run ⟨?_, ?_, ?_⟩ hlinked hconfined fuel
  · rw [hframes]
    exact .main hruns
  · rw [hoffset, hframes]
    rfl
  · rw [hstack, hframes, pushFrame_stack_length, stackSize_cons, hfun]
    rfl

/-- Functions under names of their own can all be added to the store. -/
theorem addFunctions_spec (hdistinct : (program.map Function.name).Nodup) :
    Attempts E (program.foldlM addFunction []) fun functions => functions = program := by
  refine Attempts.foldlM (fun done functions => functions = done) rfl ?_
  rintro done f rest hprogram _ rfl
  rw [hprogram, List.map_append, List.map_cons] at hdistinct
  unfold addFunction
  refine .ite (fun hmem => ?_) fun _ => .ok rfl
  exact absurd rfl ((List.nodup_append.mp hdistinct).2.2 _ hmem _ List.mem_cons_self)

/-- **The interpretation of a program that can be run.** -/
theorem interpret_spec (hlinked : Linked program rank depth)
    (hconfined : confined → Confined program depth) {f : Function} (hf : f ∈ program)
    {args : List D} (hargs : args.length = f.signature.params.length) (pinnedReg : D) (fuel : ℕ) :
    Attempts (Stop.Tolerated program confined) (interpret V program f.name args pinnedReg fuel)
      fun s => ∀ st', s = .running st' → Sound V program rank st' := by
  unfold interpret
  refine .bind (addFunctions_spec hlinked.distinct) ?_
  rintro _ rfl
  exact callByName_spec hlinked hconfined hf hargs pinnedReg fuel

/-! ## What a call leaves alone -/

/-- One round, after which there are at least `count` frames. -/
def Round (V : Values D) (program : List Function) (count : ℕ) (st st' : State D) : Prop :=
  advance V program st = .ok (.running st') ∧ count ≤ st'.frames.length

theorem stackSize_le_of_suffix {frames frames' : List (Frame D)} (h : frames <:+ frames') :
    stackSize frames ≤ stackSize frames' := by
  obtain ⟨above, rfl⟩ := h
  simp [stackSize]

/-- The frames below the top one, as long as there are as many frames. -/
theorem Advanced.suffix {st' : State D} {below : List (Frame D)}
    (h : Advanced V program rank confined st st') (hlen : below.length + 1 ≤ st'.frames.length)
    (hbelow : below <:+ st.frames.tail) : below <:+ st'.frames.tail := by
  rcases h.frames with heq | heq | heq
  · rwa [heq]
  · rw [heq]
    exact hbelow.trans (List.tail_suffix _)
  · have hlen' : below.length ≤ st'.frames.tail.length := by
      rw [List.length_tail]
      omega
    rw [heq] at hlen' ⊢
    cases htail : st.frames.tail with
    | nil => rwa [htail] at hbelow
    | cons caller rest =>
        rw [htail, List.tail_cons] at hlen'
        rw [htail] at hbelow
        refine (List.suffix_cons_iff.mp hbelow).resolve_left fun hself => ?_
        rw [hself, List.length_cons] at hlen'
        omega

/-- **Until a function returns, it leaves its callers alone**: their frames, and the bytes of their
stack slots. -/
theorem Sound.isolated (h : Sound V program rank st) (hlinked : Linked program rank depth)
    (hconfined : Confined program depth) {st' : State D}
    (hrun : ReflTransGen (Round V program st.frames.length) st st') :
    Sound V program rank st' ∧ st.frames.tail <:+ st'.frames.tail ∧
      st'.stack.take st.frameOffset = st.stack.take st.frameOffset := by
  have hcount : st.frames.tail.length + 1 = st.frames.length := by
    have hlive := h.live
    cases hframes : st.frames with
    | nil =>
        rw [hframes] at hlive
        cases hlive
    | cons fr rest => rfl
  induction hrun with
  | refl => exact ⟨h, List.suffix_rfl, rfl⟩
  | @tail st₁ st₂ _ hround ih =>
      obtain ⟨hsound, hsuffix, hbytes⟩ := ih
      have hstep : Advanced V program rank True st₁ st₂ :=
        (hsound.advance hlinked fun _ => hconfined).of_ok hround.1 st₂ rfl
      refine ⟨hstep.sound, hstep.suffix (hcount ▸ hround.2) hsuffix, ?_⟩
      -- the bytes are below the frame that has run
      have hle : st.frameOffset ≤ st₁.frameOffset := by
        rw [h.frameOffset, hsound.frameOffset]
        exact stackSize_le_of_suffix hsuffix
      have hsame := congrArg (List.take st.frameOffset) (hstep.below trivial)
      rw [List.take_take, List.take_take, min_eq_left hle] at hsame
      rw [hsame, hbytes]

end Rounds

end Clir.Interpreter
