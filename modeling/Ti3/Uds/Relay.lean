import Ti3.Library.Quiescence
import Ti3.Uds.Delivery

namespace Ti3.Uds.Relay

open Library.CString Library.CMemory Library.Interaction Library.Concurrency Library.Quiescence
open Datagrams Parties Delivery

theorem length_drop_line {s : Bytes} (h : lineWithin (bufsize - 1) s ≠ []) :
    (s.drop (lineWithin (bufsize - 1) s).length).length < s.length := by
  have hpos := List.length_pos_iff.mpr h
  have hpre := lineWithin_prefix (bufsize - 1) s
  have hle := hpre.length_le
  rw [List.length_drop]
  omega

/-- What a stream is cut into by calls of `fgets`. -/
def pieces (s : Bytes) : List Bytes :=
  if lineWithin (bufsize - 1) s = [] then []
  else lineWithin (bufsize - 1) s :: pieces (s.drop (lineWithin (bufsize - 1) s).length)
termination_by s.length
decreasing_by
  next h => exact length_drop_line h

theorem lineWithin_ne_nil {s : Bytes} (h : s ≠ []) : lineWithin (bufsize - 1) s ≠ [] := by
  obtain ⟨line, rest, hline, hne, -⟩ :=
    Library.Stdio.exists_lineWithin (k := bufsize - 1) (by decide) h
  rw [lineWithin_eq, hline]
  exact hne

theorem pieces_nil : pieces [] = [] := by
  rw [pieces]
  rfl

theorem pieces_cons {s : Bytes} (h : lineWithin (bufsize - 1) s ≠ []) :
    pieces s = lineWithin (bufsize - 1) s ::
      pieces (s.drop (lineWithin (bufsize - 1) s).length) := by
  rw [pieces, if_neg h]

theorem pieces_eq_nil {s : Bytes} : pieces s = [] ↔ s = [] := by
  constructor
  · intro h
    by_contra hne
    rw [pieces_cons (lineWithin_ne_nil hne)] at h
    cases h
  · rintro rfl
    exact pieces_nil

theorem flatten_pieces (s : Bytes) : (pieces s).flatten = s := by
  induction hn : s.length using Nat.strongRecOn generalizing s with
  | _ n ih =>
    by_cases hs : s = []
    · subst hs
      rw [pieces_nil]
      rfl
    · have hne := lineWithin_ne_nil hs
      have hpos := List.length_pos_iff.mpr hne
      obtain ⟨rest, hrest⟩ := lineWithin_prefix (bufsize - 1) s
      have hdrop : s.drop (lineWithin (bufsize - 1) s).length = rest := by
        nth_rewrite 2 [← hrest]
        exact List.drop_left
      have hlen : (lineWithin (bufsize - 1) s).length + rest.length = s.length := by
        rw [← List.length_append, hrest]
      rw [pieces_cons hne, hdrop, List.flatten_cons, ih rest.length (by omega) rest rfl, hrest]

variable {ι : Type} [DecidableEq ι]

/-- Surroundings in which no call fails, but for a `sendto` to an address that nobody has. -/
def unfailing (i : Option ι) : Environment Call Answer (World ι) := fun w c a w' =>
  environment i w c a w' ∧ w'.broken = w.broken ∧ w'.failed = w.failed ∧
    match c, a with
    | .socket, a | .bind _ _, a => a ≠ -1
    | .sendto _ _ thineAddr, a => a = -1 → w.bound ≠ some thineAddr
    | _, _ => True

/-- Where a client is. -/
inductive Phase where
  | opening
  | heading
  | reading
  | sending (line : Bytes)
  | ending
  | finished
  | refused (line : Bytes)

/-- What has been read but not sent. -/
def Phase.pending : Phase → List Bytes
  | .sending line | .refused line => [line]
  | .opening | .heading | .reading | .ending | .finished => []

/-- The client behind its loop. -/
def closing (_ : Unit) : Process Unit := do
  errIf ((← ferror) = true) inputError (ascii "Error reading from standard input")

def again (sockFd : Int) (path : Bytes) : Buffer bufsize ⊕ Unit → Process Unit :=
  Sum.elim (fun b => .loop (sendStep sockFd path) b closing) closing

/-- What is left of a client. -/
inductive Sender (path : Bytes) : Phase → Process Unit → Prop
  | opening (prog : Bytes) (buffer : Buffer bufsize) :
      Sender path .opening (client buffer [prog, path])
  | heading (sockFd : Int) (buffer : Buffer bufsize) :
      Sender path .heading (.loop (sendStep sockFd path) buffer closing)
  | reading (sockFd : Int) (buffer : Buffer bufsize) :
      Sender path .reading (sendStep sockFd path buffer >>= again sockFd path)
  | sending (sockFd : Int) (buffer : Buffer bufsize) (line : Bytes) : line.length < bufsize →
      Sender path (.sending line) ((do
        errIf ((← sendto sockFd (buffer.fill (line ++ [0])).bytes (sunPath path)) = -1) sendError
          (ascii "Cannot send to " ++ path)
        return .inl (buffer.fill (line ++ [0]))) >>= again sockFd path)
  | ending : Sender path .ending (closing ())
  | finished : Sender path .finished (.done ())
  | refused (line : Bytes) : Sender path (.refused line)
      (.halt (.status sendError (ascii "Cannot send to " ++ path)))

/-- The steps of a client. -/
inductive Sends (path : Bytes) (i : ι) (w : World ι) : Phase → Phase → World ι → Prop
  | opens : Sends path i w .opening .heading w
  | enters : Sends path i w .heading .reading w
  | reads : lineWithin (bufsize - 1) (w.input i) ≠ [] →
      Sends path i w .reading (.sending (lineWithin (bufsize - 1) (w.input i)))
        (w.setInput i ((w.input i).drop (lineWithin (bufsize - 1) (w.input i)).length))
  | stops : w.input i = [] → Sends path i w .reading .ending w
  | sends (line d : Bytes) : w.bound = some (sunPath path) → Whole d →
      text d = text line → Sends path i w (.sending line) .heading (w.setQueue i (w.queue i ++ [d]))
  | fails (line : Bytes) : w.bound ≠ some (sunPath path) →
      Sends path i w (.sending line) (.refused line) w
  | closes : Sends path i w .ending .finished w

theorem text_line (line rest : Bytes) : text (line ++ 0 :: rest) = text line := by
  induction line with
  | nil => rfl
  | cons b line ih =>
    rw [text, text] at ih
    rw [text, text, List.cons_append, List.takeWhile_cons, List.takeWhile_cons, ih]

/-- Whatever the buffer held, and whatever is read into it. -/
theorem whole_line (buffer : Buffer bufsize) {line : Bytes} (hl : line.length < bufsize) :
    Whole (buffer.fill (line ++ [0])).bytes ∧
      text (buffer.fill (line ++ [0])).bytes = text line := by
  have hfits : (line ++ [0]).length ≤ bufsize := by
    rw [List.length_append, List.length_singleton]
    omega
  have hsplit := fill_fits (m := buffer) hfits
  rw [List.append_assoc, List.singleton_append] at hsplit
  refine ⟨⟨Buffer.size _, ?_⟩, ?_⟩
  · rw [hsplit]
    exact List.mem_append_right _ List.mem_cons_self
  · rw [hsplit, text_line]

section sender

variable {path : Bytes} {i : ι} {φ : Phase} {p p' : Process Unit} {w w' : World ι}

/-- What a client does. -/
theorem sender_sends (hp : Sender path φ p) (hb : w.broken i = false)
    (h : Small (unfailing (some i)) p w p' w') :
    ∃ φ', Sender path φ' p' ∧ Sends path i w φ φ' w' := by
  cases hp with
  | opening prog buffer =>
    simp only [client, socket, library, ask_bind] at h
    obtain ⟨sockFd, ⟨hw, -, -, hne⟩, rfl⟩ := small_call h
    obtain rfl : w' = w := hw
    refine ⟨.heading, ?_, .opens⟩
    rw [errIf, if_neg hne]
    exact .heading sockFd buffer
  | heading sockFd buffer =>
    obtain ⟨rfl, rfl⟩ := small_loop h
    exact ⟨.reading, .reading sockFd buffer, .enters⟩
  | reading sockFd buffer =>
    obtain ⟨line, ⟨hw, hbroken, -, -⟩, rfl⟩ := small_call h
    obtain ⟨rfl, hi, rfl⟩ | ⟨rfl, rfl⟩ | ⟨hne, rfl, rfl⟩ := hw
    · exact ⟨.ending, .ending, .stops hi⟩
    · have htrue := congrFun hbroken i
      dsimp only at htrue
      rw [Function.update_self, hb] at htrue
      cases htrue
    · have hlen : (lineWithin (bufsize - 1) (w.input i)).length < bufsize :=
        Nat.lt_of_le_of_lt (length_lineWithin _ _) (by decide)
      exact ⟨.sending _, .sending sockFd buffer _ hlen, .reads hne⟩
  | sending sockFd buffer line hlen =>
    obtain ⟨hwhole, htext⟩ := whole_line buffer hlen
    obtain ⟨count, ⟨hw, -, -, hne⟩, rfl⟩ := small_call h
    obtain ⟨rfl, rfl⟩ | ⟨hbound, rfl, rfl⟩ := hw
    · exact ⟨.refused line, .refused line, .fails line (hne rfl)⟩
    · exact ⟨.heading, .heading sockFd _, .sends line _ hbound hwhole htext⟩
  | ending =>
    simp only [closing, ferror, library, ask_bind] at h
    obtain ⟨broken, ⟨⟨rfl, hw⟩, -, -, -⟩, rfl⟩ := small_call h
    obtain rfl : w' = w := hw
    refine ⟨.finished, ?_, .closes⟩
    rw [errIf, hb, if_neg (by decide)]
    exact .finished
  | finished => exact (not_small_done h).elim
  | refused => exact (not_small_halt h).elim

/-- A client does not wait for anything. -/
theorem sender_rests (hp : Sender path φ p)
    (h : ∀ p' w', ¬ Small (unfailing (some i)) p w p' w') :
    φ = .finished ∨ ∃ line, φ = .refused line := by
  cases hp with
  | opening prog buffer =>
    have hsocket : unfailing (some i) w .socket (0 : Int) w :=
      ⟨rfl, rfl, rfl, (by decide : (0 : Int) ≠ -1)⟩
    exact (h _ _ (.call hsocket)).elim
  | heading sockFd buffer => exact (h _ _ .loop).elim
  | reading sockFd buffer =>
    by_cases hi : w.input i = []
    · have hstops : unfailing (some i) w (.fgets bufsize) none w :=
        ⟨.inl ⟨rfl, hi, rfl⟩, rfl, rfl, trivial⟩
      exact (h _ _ (.call hstops)).elim
    · have hreads : unfailing (some i) w (.fgets bufsize)
          (some (lineWithin (bufsize - 1) (w.input i)))
          (w.setInput i ((w.input i).drop (lineWithin (bufsize - 1) (w.input i)).length)) :=
        ⟨.inr (.inr ⟨lineWithin_ne_nil hi, rfl, rfl⟩), rfl, rfl, trivial⟩
      exact (h _ _ (.call hreads)).elim
  | sending sockFd buffer line hlen =>
    by_cases hbound : w.bound = some (sunPath path)
    · have hsends : unfailing (some i) w
          (.sendto sockFd (buffer.fill (line ++ [0])).bytes (sunPath path))
          ((buffer.fill (line ++ [0])).bytes.length : Int)
          (w.setQueue i (w.queue i ++ [(buffer.fill (line ++ [0])).bytes])) := by
        have hcount : ((buffer.fill (line ++ [0])).bytes.length : Int) ≠ -1 := by omega
        exact ⟨.inr ⟨hbound, rfl, rfl⟩, rfl, rfl, fun hneg => absurd hneg hcount⟩
      exact (h _ _ (.call hsends)).elim
    · have hfails : unfailing (some i) w
          (.sendto sockFd (buffer.fill (line ++ [0])).bytes (sunPath path)) (-1 : Int) w :=
        ⟨.inl ⟨rfl, rfl⟩, rfl, rfl, fun _ => hbound⟩
      exact (h _ _ (.call hfails)).elim
  | ending =>
    have hferror : unfailing (some i) w .ferror (w.broken i) w := ⟨⟨rfl, rfl⟩, rfl, rfl, trivial⟩
    exact (h _ _ (.call hferror)).elim
  | finished => exact .inl rfl
  | refused line => exact .inr ⟨line, rfl⟩

end sender

/-- Where the server is. -/
inductive Stage where
  | opening
  | binding
  | heading
  | receiving
  | printing (string : Bytes)

/-- What has been received but not printed. -/
def Stage.pending : Stage → Bytes
  | .printing string => string
  | .opening | .binding | .heading | .receiving => []

/-- The server behind its loop. -/
def concluding (recvRet : Int) : Process Unit :=
  errIf (recvRet ≤ 0) recvError (ascii "Error in reception")

def resume (sockFd : Int) : Buffer bufsize ⊕ Int → Process Unit :=
  Sum.elim (fun b => .loop (receiveStep sockFd) b concluding) concluding

/-- What is left of the server. -/
inductive Receiver (path : Bytes) : Stage → Process Unit → Prop
  | opening (prog : Bytes) (buffer : Buffer bufsize) :
      Receiver path .opening (server buffer [prog, path])
  | binding (sockFd : Int) (buffer : Buffer bufsize) : Receiver path .binding (do
      errIf ((← Datagrams.bind sockFd (sunPath path)) = -1) sockError
        (ascii "Cannot bind socket to " ++ path)
      resume sockFd (.inl buffer))
  | heading (sockFd : Int) (buffer : Buffer bufsize) :
      Receiver path .heading (.loop (receiveStep sockFd) buffer concluding)
  | receiving (sockFd : Int) (buffer : Buffer bufsize) :
      Receiver path .receiving (receiveStep sockFd buffer >>= resume sockFd)
  | printing (sockFd : Int) (buffer : Buffer bufsize) (string : Bytes) :
      Receiver path (.printing string) (do
        let _ ← fputs string
        resume sockFd (.inl buffer))

/-- The steps of the server. -/
inductive Receives (path : Bytes) (w : World ι) : Stage → Stage → World ι → Prop
  | opens : Receives path w .opening .binding w
  | binds : Receives path w .binding .heading { w with bound := some (sunPath path) }
  | enters : Receives path w .heading .receiving w
  | receives (i : ι) (d : Bytes) (rest : List Bytes) : w.queue i = d :: rest →
      Receives path w .receiving (.printing (text d))
        { w.setQueue i rest with delivered := w.delivered ++ [(i, d)] }
  | prints (string : Bytes) : Receives path w (.printing string) .heading
      { w with output := w.output ++ string }

section receiver

variable {path : Bytes} {s : Stage} {p p' : Process Unit} {w w' : World ι}

/-- What the server does with datagrams that fill its buffer. -/
theorem receiver_receives (hp : Receiver path s p) (hw : ∀ i, ∀ d ∈ w.queue i, Whole d)
    (hf : w.failed = false) (h : Small (unfailing none) p w p' w') :
    ∃ s', Receiver path s' p' ∧ Receives path w s s' w' := by
  cases hp with
  | opening prog buffer =>
    simp only [server, socket, library, ask_bind] at h
    obtain ⟨sockFd, ⟨hw', -, -, hne⟩, rfl⟩ := small_call h
    obtain rfl : w' = w := hw'
    refine ⟨.binding, ?_, .opens⟩
    rw [errIf, if_neg hne]
    exact .binding sockFd buffer
  | binding sockFd buffer =>
    simp only [Datagrams.bind, library, ask_bind] at h
    obtain ⟨bindRet, ⟨hw', -, -, hne⟩, rfl⟩ := small_call h
    obtain ⟨rfl, -⟩ | ⟨rfl, rfl⟩ := hw'
    · exact absurd rfl hne
    · exact ⟨.heading, .heading sockFd buffer, .binds⟩
  | heading sockFd buffer =>
    obtain ⟨rfl, rfl⟩ := small_loop h
    exact ⟨.receiving, .receiving sockFd buffer, .enters⟩
  | receiving sockFd buffer =>
    simp only [receiveStep, recv, library, ask_bind, Program.call_bind] at h
    obtain ⟨bytes, ⟨hw', -, hfailed, -⟩, rfl⟩ := small_call h
    obtain ⟨rfl, rfl⟩ | ⟨i, d, rest, hq, rfl, rfl⟩ := hw'
    · cases hf.symm.trans hfailed.symm
    · have hwhole := hw i d (hq ▸ List.mem_cons_self)
      have hpos : 0 < (d.take bufsize).length := by
        rw [List.length_take, hwhole.1]
        decide
      refine ⟨.printing (text d), ?_, .receives i d rest hq⟩
      have hstring : (buffer.fill (d.take bufsize)).string (.inside 0) = some (text d) :=
        string_whole hwhole
      dsimp only
      rw [if_pos hpos, hstring]
      exact .printing sockFd _ _
  | printing sockFd buffer string =>
    simp only [fputs, library, ask_bind] at h
    obtain ⟨_, ⟨hw', -, -, -⟩, rfl⟩ := small_call h
    obtain rfl : w' = { w with output := w.output ++ string } := hw'
    exact ⟨.heading, .heading sockFd buffer, .prints string⟩

/-- The server waits for datagrams only. -/
theorem receiver_rests (hp : Receiver path s p)
    (h : ∀ p' w', ¬ Small (unfailing none) p w p' w') :
    s = .receiving ∧ (∀ i, w.queue i = []) ∧
      ∃ sockFd size, calling p = some (.recv sockFd size) := by
  cases hp with
  | opening prog buffer =>
    have hsocket : unfailing none w .socket (0 : Int) w :=
      ⟨rfl, rfl, rfl, (by decide : (0 : Int) ≠ -1)⟩
    exact (h _ _ (.call hsocket)).elim
  | binding sockFd buffer =>
    have hbind : unfailing none w (.bind sockFd (sunPath path)) (0 : Int)
        { w with bound := some (sunPath path) } :=
      ⟨.inr ⟨rfl, rfl⟩, rfl, rfl, (by decide : (0 : Int) ≠ -1)⟩
    exact (h _ _ (.call hbind)).elim
  | heading sockFd buffer => exact (h _ _ .loop).elim
  | receiving sockFd buffer =>
    refine ⟨rfl, fun i => ?_, sockFd, bufsize, rfl⟩
    cases hq : w.queue i with
    | nil => rfl
    | cons d rest =>
      have hrecv : unfailing none w (.recv sockFd bufsize) (some (d.take bufsize))
          { w.setQueue i rest with delivered := w.delivered ++ [(i, d)] } :=
        ⟨.inr ⟨i, d, rest, hq, rfl, rfl⟩, rfl, rfl, trivial⟩
      exact (h _ _ (.call hrecv)).elim
  | printing sockFd buffer string =>
    have hfputs : unfailing none w (.fputs string) (0 : Int)
        { w with output := w.output ++ string } := ⟨rfl, rfl, rfl, trivial⟩
    exact (h _ _ (.call hfputs)).elim

end receiver

/-- The clients and the server as a machine: where each of them is, and the state they share. -/
structure Machine (ι : Type) where
  phase : ι → Phase
  stage : Stage
  world : World ι

inductive Advances (paths : Option ι → Bytes) (m : Machine ι) : Machine ι → Prop
  | client (i : ι) (φ : Phase) (w : World ι) : Sends (paths (some i)) i m.world (m.phase i) φ w →
      Advances paths m ⟨Function.update m.phase i φ, m.stage, w⟩
  | server (s : Stage) (w : World ι) : Receives (paths none) m.world m.stage s w →
      Advances paths m ⟨m.phase, s, w⟩

/-- The processes are where the machine says. -/
structure Models (paths : Option ι → Bytes) (m : Machine ι) (C : System ι) : Prop where
  world : C.world = m.world
  senders : ∀ i, Sender (paths (some i)) (m.phase i) (C.programs (some i))
  receiver : Receiver (paths none) m.stage (C.programs none)

/-- What has been read by a client has been sent or is still to be sent. A client that has not
been refused goes on to the end of its input. -/
structure Conforms (input path : Bytes) (φ : Phase) (bound : Option (Buffer 108)) (v : Own) :
    Prop where
  sound : v.broken = false
  whole : ∀ d ∈ v.sent, Whole d
  split : v.sent.map text ++ (φ.pending ++ pieces v.input).map text = (pieces input).map text
  connected : v.sent ≠ [] → bound = some (sunPath path)
  through : match φ with
    | .ending | .finished => v.input = []
    | .refused _ => v.sent = []
    | _ => True

/-- The address that the server has. -/
def Stage.bound (path : Bytes) : Stage → Option (Buffer 108)
  | .opening | .binding => none
  | .heading | .receiving | .printing _ => some (sunPath path)

structure Serving (path : Bytes) (s : Stage) (w : World ι) : Prop where
  sound : w.failed = false
  bound : w.bound = s.bound path
  output : w.output ++ s.pending = texts w.delivered

structure Invariant (inputs : ι → Bytes) (paths : Option ι → Bytes) (m : Machine ι) : Prop where
  clients : ∀ i, Conforms (inputs i) (paths (some i)) (m.phase i) m.world.bound (own i m.world)
  server : Serving (paths none) m.stage m.world

variable {inputs : ι → Bytes} {paths : Option ι → Bytes} {m m' : Machine ι} {C C' : System ι}

/-- The machine keeps up with the processes. -/
theorem step_advances (hm : Models paths m C) (hi : Invariant inputs paths m)
    (hs : Step unfailing C C') : ∃ m', Advances paths m m' ∧ Models paths m' C' := by
  obtain ⟨j, hs⟩ := hs
  rw [hm.world] at hs
  cases j with
  | some i =>
    obtain ⟨φ, hφ, hsends⟩ := sender_sends (hm.senders i) (hi.clients i).sound hs
    refine ⟨_, .client i φ _ hsends, rfl, fun j => ?_, ?_⟩
    · by_cases hj : j = i
      · subst hj
        dsimp only
        rw [Function.update_self, Function.update_self]
        exact hφ
      · have hne : some j ≠ some i := fun h => hj (Option.some.inj h)
        dsimp only
        rw [Function.update_of_ne hj, Function.update_of_ne hne]
        exact hm.senders j
    · have hne : (none : Option ι) ≠ some i := fun h => by cases h
      dsimp only
      rw [Function.update_of_ne hne]
      exact hm.receiver
  | none =>
    have hwhole (i : ι) (d : Bytes) (hd : d ∈ m.world.queue i) : Whole d :=
      (hi.clients i).whole d (List.mem_append_right _ hd)
    obtain ⟨s, hs', hreceives⟩ := receiver_receives hm.receiver hwhole hi.server.sound hs
    refine ⟨_, .server s _ hreceives, rfl, fun j => ?_, ?_⟩
    · have hne : some j ≠ none := fun h => by cases h
      dsimp only
      rw [Function.update_of_ne hne]
      exact hm.senders j
    · dsimp only
      rw [Function.update_self]
      exact hs'

section invariant

variable {input path : Bytes} {i j : ι} {φ φ' : Phase} {s s' : Stage} {w w' : World ι}

theorem sends_bound (h : Sends path i w φ φ' w') : w'.bound = w.bound := by
  cases h <;> rfl

theorem sends_other (h : Sends path i w φ φ' w') (hj : i ≠ j) : own j w' = own j w := by
  cases h with
  | opens | enters | stops | fails | closes => rfl
  | reads => exact own_setInput_other hj _ _
  | sends => exact own_setQueue_other hj _ _

theorem sends_server (h : Sends path i w φ φ' w') :
    w'.failed = w.failed ∧ w'.output = w.output ∧ w'.delivered = w.delivered := by
  cases h <;> exact ⟨rfl, rfl, rfl⟩

theorem sends_conforms (hc : Conforms input path φ w.bound (own i w))
    (h : Sends path i w φ φ' w') : Conforms input path φ' w'.bound (own i w') := by
  cases h with
  | opens | enters | closes => exact ⟨hc.sound, hc.whole, hc.split, hc.connected, hc.through⟩
  | reads hne =>
    have hown : own i (w.setInput i ((w.input i).drop
        (lineWithin (bufsize - 1) (w.input i)).length)) = { own i w with
          input := (w.input i).drop (lineWithin (bufsize - 1) (w.input i)).length } := by
      simp [own, World.setInput]
    rw [hown]
    refine ⟨hc.sound, hc.whole, ?_, hc.connected, trivial⟩
    have hsplit := hc.split
    rw [show (own i w).input = w.input i from rfl, pieces_cons hne] at hsplit
    exact hsplit
  | stops hi => exact ⟨hc.sound, hc.whole, hc.split, hc.connected, hi⟩
  | sends line d hbound hwhole htext =>
    have hown : own i (w.setQueue i (w.queue i ++ [d])) =
        { own i w with sent := (own i w).sent ++ [d] } := by
      simp [own, World.setQueue]
    rw [hown]
    refine ⟨hc.sound, ?_, ?_, fun _ => hbound, trivial⟩
    · exact List.forall_mem_append.mpr ⟨hc.whole, List.forall_mem_singleton.mpr hwhole⟩
    · rw [← hc.split]
      simp only [Phase.pending, List.map_append, List.map_cons, List.map_nil, htext,
        List.nil_append, List.append_assoc]
  | fails line hbound =>
    refine ⟨hc.sound, hc.whole, hc.split, hc.connected, ?_⟩
    by_contra hne
    exact hbound (hc.connected hne)

/-- The server does not touch what belongs to a client, but for its address. -/
theorem receives_conforms {home : Bytes} (hw : w.bound = s.bound home)
    (h : Receives home w s s' w') (hc : Conforms input path φ w.bound (own i w)) :
    Conforms input path φ w'.bound (own i w') := by
  cases h with
  | opens | enters | prints => exact hc
  | binds =>
    refine ⟨hc.sound, hc.whole, hc.split, fun hne => ?_, hc.through⟩
    have hsome := hc.connected hne
    rw [hw] at hsome
    cases hsome
  | receives i d rest hq =>
    rw [own_deliver hq]
    exact hc

theorem receives_serving {home : Bytes} (h : Receives home w s s' w') (hs : Serving home s w) :
    Serving home s' w' := by
  cases h with
  | opens | enters => exact ⟨hs.sound, hs.bound, hs.output⟩
  | binds => exact ⟨hs.sound, rfl, hs.output⟩
  | receives i d rest hq =>
    refine ⟨hs.sound, hs.bound, ?_⟩
    have houtput := hs.output
    rw [Stage.pending, List.append_nil] at houtput
    rw [texts, List.flatMap_append, List.flatMap_singleton, ← texts, ← houtput]
    rfl
  | prints string =>
    refine ⟨hs.sound, hs.bound, ?_⟩
    rw [Stage.pending, List.append_nil]
    exact hs.output

theorem advances_invariant (hi : Invariant inputs paths m) (h : Advances paths m m') :
    Invariant inputs paths m' := by
  cases h with
  | client i φ w hsends =>
    refine ⟨fun j => ?_, ?_⟩
    · by_cases hj : j = i
      · subst hj
        dsimp only
        rw [Function.update_self]
        exact sends_conforms (hi.clients j) hsends
      · dsimp only
        rw [Function.update_of_ne hj, sends_other hsends (Ne.symm hj), sends_bound hsends]
        exact hi.clients j
    · obtain ⟨hfailed, houtput, hdelivered⟩ := sends_server hsends
      refine ⟨hfailed.trans hi.server.sound, (sends_bound hsends).trans hi.server.bound, ?_⟩
      rw [houtput, hdelivered]
      exact hi.server.output
  | server s w hreceives =>
    exact ⟨fun i => receives_conforms hi.server.bound hreceives (hi.clients i),
      receives_serving hreceives hi.server⟩

end invariant

section charge

/-- An upper bound of the steps that a client has still to take and to give to the server, with
`n` bytes left to read. -/
def Phase.charge (n : Nat) : Phase → Nat
  | .opening => 6 * n + 5
  | .heading => 6 * n + 4
  | .reading => 6 * n + 3
  | .sending _ => 6 * n + 8
  | .ending => 1
  | .finished | .refused _ => 0

def Stage.charge : Stage → Nat
  | .opening => 4
  | .binding | .printing _ => 3
  | .heading => 2
  | .receiving => 1

/-- Each datagram on its way costs the server three steps. -/
def debt (φ : Phase) (w : World ι) (i : ι) : Nat :=
  φ.charge (w.input i).length + 3 * (w.queue i).length

def Machine.total [Fintype ι] (m : Machine ι) : Nat :=
  ∑ i, debt (m.phase i) m.world i + m.stage.charge

variable {path : Bytes} {i j : ι} {φ φ' ψ : Phase} {s s' : Stage} {w w' : World ι}

theorem debt_setQueue_other (hj : j ≠ i) (q : List Bytes) :
    debt ψ (w.setQueue i q) j = debt ψ w j := by
  simp only [debt, World.setQueue, Function.update_of_ne hj]

theorem sends_debt_other (h : Sends path i w φ φ' w') (hj : j ≠ i) : debt ψ w' j = debt ψ w j := by
  cases h with
  | opens | enters | stops | fails | closes => rfl
  | reads => simp only [debt, World.setInput, Function.update_of_ne hj]
  | sends => exact debt_setQueue_other hj _

theorem sends_debt (h : Sends path i w φ φ' w') : debt φ' w' i < debt φ w i := by
  cases h with
  | opens | enters | stops | fails | closes =>
    simp only [debt, Phase.charge]
    omega
  | reads hne =>
    have hlt := length_drop_line hne
    simp only [debt, Phase.charge, World.setInput, Function.update_self]
    omega
  | sends line d =>
    simp only [debt, Phase.charge, World.setQueue, Function.update_self, List.length_append,
      List.length_singleton]
    omega

variable [Fintype ι]

theorem receives_total (h : Receives path w s s' w') (phase : ι → Phase) :
    Machine.total ⟨phase, s', w'⟩ < Machine.total ⟨phase, s, w⟩ := by
  cases h with
  | opens | binds | enters | prints =>
    simp only [Machine.total, debt, Stage.charge]
    omega
  | receives i d rest hq =>
    have hsum := sum_charge (fun j => debt (phase j) w j)
      (fun j => debt (phase j) (w.setQueue i rest) j) i (fun j hj => debt_setQueue_other hj rest)
    have hdebt : debt (phase i) w i = debt (phase i) (w.setQueue i rest) i + 3 := by
      simp only [debt, World.setQueue, Function.update_self, hq, List.length_cons]
      omega
    simp only [Machine.total, Stage.charge]
    simp only [debt] at hsum hdebt ⊢
    omega

theorem sends_total {phase : ι → Phase} (h : Sends path i w (phase i) φ w') (s : Stage) :
    Machine.total ⟨Function.update phase i φ, s, w'⟩ < Machine.total ⟨phase, s, w⟩ := by
  have hsum := sum_charge (fun j => debt (phase j) w j)
    (fun j => debt (Function.update phase i φ j) w' j) i (fun j hj => by
      rw [Function.update_of_ne hj]
      exact sends_debt_other h hj)
  have hdebt := sends_debt h
  rw [Function.update_self] at hsum
  simp only [Machine.total]
  omega

theorem advances_total (h : Advances paths m m') : m'.total < m.total := by
  cases h with
  | client i φ w hsends => exact sends_total hsends m.stage
  | server s w hreceives => exact receives_total hreceives m.phase

end charge

/-- All processes with one argument each, the path of a socket. -/
def launch (inputs : ι → Bytes) (buffers : Option ι → Buffer bufsize)
    (progs paths : Option ι → Bytes) : System ι :=
  start inputs buffers (fun i => [progs i, paths i])

def Machine.start (inputs : ι → Bytes) : Machine ι where
  phase _ := .opening
  stage := .opening
  world := ⟨inputs, fun _ => false, fun _ => [], none, [], [], false⟩

/-- All of a standard input has been sent, to the server. -/
structure Complete (input path home : Bytes) (p : Process Unit) (sent : List Bytes) : Prop where
  returned : returned p = some ()
  strings : sent.map text = (pieces input).map text
  plain : 0 ∉ input → sent.flatMap text = input
  address : input ≠ [] → sunPath path = sunPath home

/-- Nothing has been sent. -/
structure Refused (input path : Bytes) (p : Process Unit) (sent : List Bytes) : Prop where
  halted : halted p = some (.status sendError (ascii "Cannot send to " ++ path))
  silent : sent = []
  busy : input ≠ []

/-- The server waits, and everything that has been sent is printed. -/
structure Relayed (inputs : ι → Bytes) (paths : Option ι → Bytes) (C : System ι) : Prop where
  waits : Waiting C
  empty : ∀ i, C.world.queue i = []
  printed : C.world.output = texts C.world.delivered
  clients : ∀ i,
    Complete (inputs i) (paths (some i)) (paths none) (C.programs (some i))
      (sentBy i C.world.delivered) ∨
    Refused (inputs i) (paths (some i)) (C.programs (some i)) (sentBy i C.world.delivered)

section relay

variable {buffers : Option ι → Buffer bufsize} {progs : Option ι → Bytes}

omit [DecidableEq ι] in
theorem start_models : Models paths (.start inputs) (launch inputs buffers progs paths) where
  world := rfl
  senders i := .opening (progs (some i)) (buffers (some i))
  receiver := .opening (progs none) (buffers none)

theorem start_invariant : Invariant inputs paths (.start inputs) where
  clients _ := ⟨rfl, fun _ hd => absurd hd List.not_mem_nil, rfl, fun h => absurd rfl h, trivial⟩
  server := ⟨rfl, rfl, rfl⟩

theorem reachable_modelled (h : Reachable unfailing (launch inputs buffers progs paths) C) :
    ∃ m, Models paths m C ∧ Invariant inputs paths m := by
  induction h with
  | refl => exact ⟨_, start_models, start_invariant⟩
  | tail _ hs ih =>
    obtain ⟨m, hm, hi⟩ := ih
    obtain ⟨m', ha, hm'⟩ := step_advances hm hi hs
    exact ⟨m', hm', advances_invariant hi ha⟩

/-- The strings of the pieces of a stream without zeros make up the stream. -/
theorem flatMap_pieces {s : Bytes} (h : 0 ∉ s) : (pieces s).flatMap text = s := by
  have hpieces : ∀ l ∈ pieces s, text l = l := by
    intro l hl
    refine takeWhile_whole (fun h₀ => h ?_)
    rw [← flatten_pieces s]
    exact List.mem_flatten.mpr ⟨l, hl, h₀⟩
  rw [List.flatMap, List.map_congr_left hpieces, List.map_id', flatten_pieces]

theorem finished_complete {input path home : Bytes} {sent : List Bytes} {v : Own}
    {p : Process Unit} {bound : Option (Buffer 108)} (hp : Sender path .finished p)
    (hc : Conforms input path .finished bound v) (hsent : v.sent = sent)
    (hbound : bound = some (sunPath home)) : Complete input path home p sent := by
  have hsplit := hc.split
  rw [show v.input = [] from hc.through, pieces_nil, hsent] at hsplit
  have hstrings : sent.map text = (pieces input).map text :=
    (List.append_nil _).symm.trans hsplit
  refine ⟨?_, hstrings, fun hfree => ?_, fun hne => ?_⟩
  · cases hp with
    | finished => rfl
  · rw [List.flatMap, hstrings, ← List.flatMap, flatMap_pieces hfree]
  · have hsome : v.sent ≠ [] := by
      intro hnil
      rw [← hsent, hnil] at hstrings
      exact hne (pieces_eq_nil.mp (List.map_eq_nil_iff.mp hstrings.symm))
    exact Option.some.inj ((hc.connected hsome).symm.trans hbound)

theorem refused_refused {input path line : Bytes} {sent : List Bytes} {v : Own}
    {p : Process Unit} {bound : Option (Buffer 108)} (hp : Sender path (.refused line) p)
    (hc : Conforms input path (.refused line) bound v) (hsent : v.sent = sent) :
    Refused input path p sent := by
  refine ⟨?_, hsent.symm.trans hc.through, fun hnil => ?_⟩
  · cases hp with
    | refused => rfl
  · have hsplit := hc.split
    rw [hnil, pieces_nil, show v.sent = [] from hc.through] at hsplit
    cases hsplit

/-- Where nothing can happen any more, nothing is left to be done. -/
theorem rests_relayed {m : Machine ι} (hm : Models paths m C) (hi : Invariant inputs paths m)
    (h : Rests unfailing C) : Relayed inputs paths C := by
  have hsmall (j : Option ι) (p' : Process Unit) (w' : World ι) :
      ¬ Small (unfailing j) (C.programs j) m.world p' w' := hm.world ▸ rests_small h j p' w'
  obtain ⟨hstage, hempty, sockFd, size, hwaits⟩ := receiver_rests hm.receiver (hsmall none)
  have hserver := hi.server
  rw [hstage] at hserver
  refine ⟨⟨sockFd, size, hwaits⟩, hm.world ▸ hempty, ?_, fun i => ?_⟩
  · rw [hm.world, ← hserver.output]
    exact (List.append_nil _).symm
  · have hsent : (own i m.world).sent = sentBy i C.world.delivered := by
      rw [hm.world]
      simp only [own, hempty i, List.append_nil]
    have hsender := hm.senders i
    have hclient := hi.clients i
    obtain hφ | ⟨line, hφ⟩ := sender_rests hsender (hsmall (some i))
    · rw [hφ] at hsender hclient
      exact .inl (finished_complete hsender hclient hsent hserver.bound)
    · rw [hφ] at hsender hclient
      exact .inr (refused_refused hsender hclient hsent)

/-- A state of the machine with a given charge stands behind the processes. -/
def Charged [Fintype ι] (inputs : ι → Bytes) (paths : Option ι → Bytes) (n : Nat) (C : System ι) :
    Prop :=
  ∃ m, Models paths m C ∧ Invariant inputs paths m ∧ m.total = n

theorem step_charged [Fintype ι] (n : Nat) (C C' : System ι) (h : Charged inputs paths n C)
    (hs : Step unfailing C C') : ∃ k < n, Charged inputs paths k C' := by
  obtain ⟨m, hm, hi, rfl⟩ := h
  obtain ⟨m', ha, hm'⟩ := step_advances hm hi hs
  exact ⟨m'.total, advances_total ha, m', hm', advances_invariant hi ha, rfl⟩

/-- However the processes are interleaved, they come to rest, and then every client has been
relayed as a whole or not at all. -/
theorem relay_rests [Fintype ι] (inputs : ι → Bytes) (buffers : Option ι → Buffer bufsize)
    (progs paths : Option ι → Bytes) :
    (∃ bound, ∀ (f : Nat → System ι) (n : Nat), f 0 = launch inputs buffers progs paths →
      (∀ k < n, Step unfailing (f k) (f (k + 1))) → n ≤ bound) ∧
    ∀ C, Reachable unfailing (launch inputs buffers progs paths) C → Rests unfailing C →
      Relayed inputs paths C := by
  refine ⟨⟨(Machine.start inputs).total, fun f n h hf => ?_⟩, fun C hC hrest => ?_⟩
  · have hstart : Charged inputs paths (Machine.start inputs).total (f 0) :=
      ⟨_, h ▸ start_models, start_invariant, rfl⟩
    exact steps_bounded step_charged hstart hf
  · obtain ⟨m, hm, hi⟩ := reachable_modelled hC
    exact rests_relayed hm hi hrest

theorem cooperate_unfailing (i : Option Bool) (w : World Bool) (c : Call) (a : Answer c)
    (w' : World Bool) (h : cooperate i w c = some (a, w')) : unfailing i w c a w' := by
  refine ⟨cooperate_allowed i w c a w' h, ?_⟩
  cases i with
  | some i =>
    cases c with
    | socket =>
      cases h
      exact ⟨rfl, rfl, (by decide : (3 : Int) ≠ -1)⟩
    | fgets size =>
      simp only [cooperate] at h
      split at h
      · split at h
        · cases h
          exact ⟨rfl, rfl, trivial⟩
        · cases h
      · cases h
        exact ⟨rfl, rfl, trivial⟩
    | ferror =>
      cases h
      exact ⟨rfl, rfl, trivial⟩
    | sendto sockFd bytes thineAddr =>
      simp only [cooperate] at h
      split at h
      · cases h
        have hcount : (bytes.length : Int) ≠ -1 := by omega
        exact ⟨rfl, rfl, fun hneg => absurd hneg hcount⟩
      · next hbound =>
        cases h
        exact ⟨rfl, rfl, fun _ => hbound⟩
    | bind | recv | fputs => cases h
  | none =>
    cases c with
    | socket =>
      cases h
      exact ⟨rfl, rfl, (by decide : (3 : Int) ≠ -1)⟩
    | bind sockFd mineAddr =>
      cases h
      exact ⟨rfl, rfl, (by decide : (0 : Int) ≠ -1)⟩
    | recv sockFd size =>
      simp only [cooperate] at h
      split at h
      · cases h
        exact ⟨rfl, rfl, trivial⟩
      · cases h
        exact ⟨rfl, rfl, trivial⟩
      · cases h
    | fputs text =>
      cases h
      exact ⟨rfl, rfl, trivial⟩
    | fgets | ferror | sendto => cases h

theorem twoClients_rests : Rests unfailing twoClients := by
  have hwaits : calling (twoClients.programs none) = some (.recv 3 bufsize) := by decide +kernel
  have hreturned : ∀ i, returned (twoClients.programs (some i)) = some () := by decide +kernel
  have hempty : ∀ i, twoClients.world.queue i = [] := by decide +kernel
  refine rests_iff.mpr (fun i => ?_)
  cases i with
  | some i => exact .inl ⟨(), hreturned i⟩
  | none =>
    refine .inr (.inr ⟨_, hwaits, ?_⟩)
    rintro a w' ⟨⟨-, rfl⟩ | ⟨i, d, rest, hq, -, -⟩, -, hfailed, -⟩
    · have hfine : twoClients.world.failed = false := by decide +kernel
      cases hfailed.trans hfine
    · rw [hempty i] at hq
      cases hq

theorem relay_rests_twoClients : Relayed lines (fun _ => ascii "sock") twoClients :=
  (relay_rests lines (fun _ => Buffer.zeros bufsize) (fun _ => ascii "uds")
    (fun _ => ascii "sock")).2 twoClients (schedule_reachable cooperate_unfailing _ _)
      twoClients_rests

end relay

end Ti3.Uds.Relay
