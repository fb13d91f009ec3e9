import Galaris.Base.Blocks
import Mathlib.Order.Monotone.Defs
import Mathlib.Order.Lattice
import Mathlib.Algebra.Order.Field.Basic
import Mathlib.Algebra.Order.Round
import Mathlib.Data.Rat.Floor

/-! Turns of speech (`voice/turn_detection.py`).

Frames of 20 ms are heard one by one, with what the classifier says of each. Speech that goes on long enough begins
a turn, and silence that does ends it; a turn that grows long is told in chunks. Whoever joins the chunks has the
turns that are told without a limit, says `turns_joined_iff`, where no cut falls into the silence that ends a turn.

The stream does not stall here: durations are counted from the bytes received. -/
namespace Galaris.Voice.Turns

abbrev Bytes := List UInt8

/-- Bytes as seconds, and seconds rounded to bytes. -/
structure Clock (F : Type) [LinearOrder F] where
  seconds : Nat → F
  bytes : F → Int
  mono : Monotone seconds

/-- The thresholds; nothing reaches a maximum that is not given. -/
structure Thresholds (F : Type) where
  minSpeechS : F
  speechStartS : F
  silenceS : F
  maxUtteranceS : Option F
  preRollS : F

/-- Why an utterance is told. -/
inductive Reason
  | maxDuration
  | silence
  | streamEnd
deriving DecidableEq, Repr

/-- `SpeechUtterance`. -/
structure Utterance (F : Type) where
  pcm : Bytes
  durationS : F
  voicedS : F
  reason : Reason

/-- A frame and what the classifier says of it. -/
structure Frame where
  pcm : Bytes
  voiced : Bool

/-- The variables of `detect_speech_turns`. -/
structure State where
  active : Bool := false
  continuing : Bool := false
  buffer : Bytes := []
  voicedBytes : Nat := 0
  bufferedAtLastVoice : Nat := 0
  onsetVoicedBytes : Nat := 0
  preRoll : List Bytes := []

/-- `on_speech_start` is called, or an utterance is yielded. -/
inductive Event (F : Type)
  | started
  | said (utterance : Utterance F)

/-! ### Frames of the stream -/

/-- A received frame that the checks of `normalized_frames` let through. -/
structure AudioFrame where
  pcm : Bytes
  even : pcm.length % 2 = 0

/-- 20 ms at 48 kHz, one channel of two bytes. -/
def frameBytes : Nat := 1920

/-- `normalized_frames`. -/
def normalizedFrames : Bytes → List AudioFrame → List Bytes
  | pending, [] => if pending = [] then [] else [pending]
  | pending, frame :: stream =>
    (Blocks.cut frameBytes (pending ++ frame.pcm)).1 ++ normalizedFrames
      (Blocks.cut frameBytes (pending ++ frame.pcm)).2 stream

/-- The frames of a stream with what the classifier says of each. -/
def classified (stream : List AudioFrame) (voiced : Nat → Bool) : List Frame :=
  (normalizedFrames [] stream).zipIdx.map fun (pcm, i) => ⟨pcm, voiced i⟩

/-- What is kept of the chunks before a turn: the end of them, of at most so many bytes. -/
def trim (limit : Nat) : List Bytes → List Bytes
  | [] => []
  | first :: rest =>
    let total := (first :: rest).flatten.length
    if limit < total then
      if total - limit < first.length then first.drop (total - limit) :: rest else trim limit rest
    else first :: rest

section Detection
variable {F : Type} [LinearOrder F] (clock : Clock F) (c : Thresholds F)

def Thresholds.speechStartBytes : Nat := (max 1 (clock.bytes c.speechStartS)).toNat
def Thresholds.preRollLimit : Nat := max (c.speechStartBytes clock) (clock.bytes c.preRollS).toNat

/-- The same without a limit. -/
def Thresholds.unlimited : Thresholds F := {c with maxUtteranceS := none}

/-- `has_speech`. -/
def hasSpeech (s : State) : Prop := c.minSpeechS ≤ clock.seconds s.voicedBytes ∨ s.continuing = true

instance (s : State) : Decidable (hasSpeech clock c s) := inferInstanceAs (Decidable (_ ∨ _))

/-- The state after an utterance. -/
def State.reset (s : State) (continueTurn : Bool) : State :=
  {s with
    active := continueTurn, continuing := continueTurn, buffer := [], voicedBytes := 0
    bufferedAtLastVoice := 0, onsetVoicedBytes := 0}

/-- `finish`. -/
def finish (s : State) (reason : Reason) (continueTurn : Bool) : State × Option (Utterance F) :=
  (s.reset continueTurn,
    if hasSpeech clock c s then some ⟨s.buffer, clock.seconds s.buffer.length,
      clock.seconds s.voicedBytes, reason⟩ else none)

/-- The state with a frame, and whether a turn starts with it. -/
def listen (s : State) (frame : Frame) : State × Bool :=
  let preRoll := trim (c.preRollLimit clock) (s.preRoll ++ [frame.pcm])
  if s.active then
    let buffer := s.buffer ++ frame.pcm
    ({s with
        preRoll, buffer
        voicedBytes := if frame.voiced then s.voicedBytes + frame.pcm.length else s.voicedBytes
        bufferedAtLastVoice := if frame.voiced then buffer.length else s.bufferedAtLastVoice}, false)
  else
    let onset := if frame.voiced then s.onsetVoicedBytes + frame.pcm.length else 0
    if onset < c.speechStartBytes clock then ({s with preRoll, onsetVoicedBytes := onset}, false)
    else
      let buffer := s.buffer ++ preRoll.flatten
      ({s with
          preRoll, buffer, active := true, voicedBytes := onset
          bufferedAtLastVoice := buffer.length, onsetVoicedBytes := 0}, true)

/-- The turn has grown long. -/
def Long (s : State) : Prop := ∃ limit ∈ c.maxUtteranceS, limit ≤ clock.seconds s.buffer.length

instance (s : State) : Decidable (Long clock c s) := inferInstanceAs (Decidable (∃ limit ∈ c.maxUtteranceS, _))

/-- The silence at the end of the buffer is long enough. -/
def Silent (s : State) : Prop := c.silenceS ≤ clock.seconds (s.buffer.length - s.bufferedAtLastVoice)

instance (s : State) : Decidable (Silent clock c s) := inferInstanceAs (Decidable (_ ≤ _))

/-- The decision after a frame. -/
def settle (s : State) : State × Option (Utterance F) :=
  if Long clock c s then finish clock c s .maxDuration true
  else if Silent clock c s then finish clock c s .silence false
  else (s, none)

/-- A frame is heard. -/
def receive (s : State) (frame : Frame) : State × List (Event F) :=
  let (heard, started) := listen clock c s frame
  if heard.active then
    let (next, utterance) := settle clock c heard
    (next, (if started then [.started] else []) ++ utterance.toList.map .said)
  else (heard, [])

/-- What happens from a state on, each event with the bytes received until then. -/
def events (s : State) (received : Nat) : List Frame → List (Nat × Event F)
  | [] => (finish clock c s .streamEnd false).2.toList.map fun utterance => (received, .said utterance)
  | frame :: frames =>
    let (next, now) := receive clock c s frame
    now.map (received + frame.pcm.length, ·) ++ events next (received + frame.pcm.length) frames

/-- `detect_speech_turns`. -/
def detectSpeechTurns (stream : List AudioFrame) (voiced : Nat → Bool) : List (Nat × Event F) :=
    events clock c {} 0 (classified stream voiced)

end Detection

/-! ### Turns -/

section Joined
variable {F : Type}

/-- The utterances, with the bytes received until each. -/
def spoken : List (Nat × Event F) → List (Bytes × Nat)
  | [] => []
  | (_, .started) :: rest => spoken rest
  | (received, .said utterance) :: rest => (utterance.pcm, received) :: spoken rest

/-- The same with the chunks of a turn that grew long joined to the one that follows them. -/
def joined (chunks : Bytes) : List (Nat × Event F) → List (Bytes × Nat)
  | [] => []
  | (_, .started) :: rest => joined chunks rest
  | (received, .said utterance) :: rest =>
    if utterance.reason = .maxDuration then joined (chunks ++ utterance.pcm) rest
    else (chunks ++ utterance.pcm, received) :: joined [] rest

/-- How often `on_speech_start` is called. -/
def starts : List (Nat × Event F) → Nat
  | [] => 0
  | (_, .started) :: rest => starts rest + 1
  | (_, .said _) :: rest => starts rest

theorem mem_joined {chunks pcm : Bytes} {at' : Nat} {es : List (Nat × Event F)}
    (h : (pcm, at') ∈ joined chunks es) : ∃ e, (at', e) ∈ es := by
  induction es generalizing chunks with
  | nil => cases h
  | cons e es ih =>
    obtain ⟨received, event⟩ := e
    cases event with
    | started =>
      obtain ⟨e, he⟩ := ih h
      exact ⟨e, .tail _ he⟩
    | said utterance =>
      rw [joined] at h
      split at h
      case isTrue =>
        obtain ⟨e, he⟩ := ih h
        exact ⟨e, .tail _ he⟩
      case isFalse =>
        obtain heq | h := List.mem_cons.mp h
        · cases heq
          exact ⟨_, .head _⟩
        · obtain ⟨e, he⟩ := ih h
          exact ⟨e, .tail _ he⟩

end Joined

section Detection
variable {F : Type} [LinearOrder F] (clock : Clock F) (c : Thresholds F)

/-- The joined chunks are the turns that are told without a limit, and a start is told once for each. -/
def Reassembled (stream : List AudioFrame) (voiced : Nat → Bool) : Prop :=
  joined [] (detectSpeechTurns clock c stream voiced) = spoken (detectSpeechTurns clock c.unlimited stream voiced) ∧
    starts (detectSpeechTurns clock c stream voiced) = (joined [] (detectSpeechTurns clock c stream voiced)).length

/-- The silence since the last voiced frame, in bytes. -/
def quietAfter (quiet : Nat) (frame : Frame) : Nat := if frame.voiced then 0 else quiet + frame.pcm.length

/-- No cut falls into the silence that ends a turn. After every frame of a turn: a chunk that ends has
speech; and where the silence since the last voiced frame is long enough, and the stream goes on, no cut is
made and what the chunk has of it is long enough too. At the end: a turn has speech, and what is not a turn
has none. -/
def Uncut (s : State) (quiet : Nat) : List Frame → Prop
  | [] => hasSpeech clock c s ↔ s.active = true
  | frame :: frames =>
    let heard := (listen clock c s frame).1
    (heard.active = true → (Long clock c heard ∨ Silent clock c heard → hasSpeech clock c heard) ∧
      (frames ≠ [] ∨ c.minSpeechS ≤ clock.seconds 0 → c.silenceS ≤ clock.seconds (quietAfter quiet frame) →
        ¬Long clock c heard ∧ Silent clock c heard)) ∧
    Uncut (receive clock c s frame).1 (quietAfter quiet frame) frames

instance Uncut.decidable (s : State) (quiet : Nat) : ∀ frames, Decidable (Uncut clock c s quiet frames)
  | [] => inferInstanceAs (Decidable (_ ↔ _))
  | frame :: frames =>
    have := Uncut.decidable (receive clock c s frame).1 (quietAfter quiet frame) frames
    inferInstanceAs (Decidable (_ ∧ _))

/-- The state `u` is what the state `s` would be without a limit: `chunks` have been told of the turn, which
has been quiet for `quiet` bytes. -/
structure Related (s u : State) (chunks : Bytes) (quiet : Nat) : Prop where
  active : u.active = s.active
  preRoll : u.preRoll = s.preRoll
  onset : u.onsetVoicedBytes = s.onsetVoicedBytes
  buffer : u.buffer = chunks ++ s.buffer
  uncontinued : u.continuing = false
  fresh : s.continuing = false → chunks = [] ∧ u.voicedBytes = s.voicedBytes ∧
    u.bufferedAtLastVoice = s.bufferedAtLastVoice
  continued : s.continuing = true → s.active = true ∧ c.minSpeechS ≤ clock.seconds u.voicedBytes
  whole : s.active = true → u.bufferedAtLastVoice + quiet = u.buffer.length
  part : s.active = true → s.buffer.length - s.bufferedAtLastVoice ≤ quiet
  begun : s.active = true → s.onsetVoicedBytes = 0

variable {clock c} {s u : State} {chunks : Bytes} {quiet : Nat}

theorem Related.initial : Related clock c {} {} [] 0 :=
  ⟨rfl, rfl, rfl, rfl, rfl, fun _ => ⟨rfl, rfl, rfl⟩, nofun, nofun, nofun, nofun⟩

theorem listen_active {frame : Frame} (h : s.active = true) :
    (listen clock c s frame).1.active = true ∧ (listen clock c s frame).2 = false := by
  simp [listen, h]

/-- Both hear a frame alike. -/
theorem Related.listen (h : Related clock c s u chunks quiet) (frame : Frame) :
    (Turns.listen clock c.unlimited u frame).2 = (Turns.listen clock c s frame).2 ∧
      Related clock c (Turns.listen clock c s frame).1
          (Turns.listen clock c.unlimited u frame).1 chunks (quietAfter quiet frame) := by
  have hstart : c.unlimited.speechStartBytes clock = c.speechStartBytes clock := rfl
  have hlimit : c.unlimited.preRollLimit clock = c.preRollLimit clock := rfl
  have hpos : 0 < c.speechStartBytes clock := by simp only [Thresholds.speechStartBytes]; omega
  simp only [Turns.listen, h.active, h.preRoll, h.onset, h.buffer, hstart, hlimit]
  cases hactive : s.active with
  | true =>
    have hwhole := h.whole hactive
    have hpart := h.part hactive
    simp only [if_true]
    refine ⟨trivial, rfl, rfl, rfl, List.append_assoc .., h.uncontinued, fun hc => ?_, fun hc => ?_,
      fun _ => ?_, fun _ => ?_, fun _ => h.begun hactive⟩
    · obtain ⟨rfl, hvoiced, hlast⟩ := h.fresh hc
      simp [hvoiced, hlast]
    · refine ⟨rfl, (h.continued hc).2.trans (clock.mono ?_)⟩
      cases frame.voiced with
      | true => exact Nat.le_add_right ..
      | false => exact Nat.le_refl _
    · rw [h.buffer, List.length_append] at hwhole
      cases hvoiced : frame.voiced with
      | true => simp [quietAfter, hvoiced]
      | false =>
        simp [quietAfter, hvoiced]
        omega
    · cases hvoiced : frame.voiced <;> simp [quietAfter, hvoiced]
      omega
  | false =>
    have hc : s.continuing = false := by
      by_contra hc
      rw [(h.continued (Bool.eq_true_of_not_eq_false hc)).1] at hactive
      cases hactive
    obtain ⟨rfl, hvoiced, hlast⟩ := h.fresh hc
    simp only [List.nil_append, Bool.false_eq_true, if_false]
    by_cases honset : (if frame.voiced = true then s.onsetVoicedBytes + frame.pcm.length else 0) <
      c.speechStartBytes clock
    · simp only [if_pos honset]
      exact ⟨trivial, rfl, rfl, rfl, rfl, h.uncontinued, fun _ => ⟨rfl, hvoiced, hlast⟩,
        fun hc' => absurd (hc'.symm.trans hc) nofun, nofun, nofun, nofun⟩
    · simp only [if_neg honset]
      refine ⟨trivial, rfl, rfl, rfl, rfl, h.uncontinued, fun _ => ⟨rfl, rfl, rfl⟩,
        fun hc' => absurd (hc'.symm.trans hc) nofun, fun _ => ?_, fun _ => ?_, fun _ => rfl⟩
      · -- The turn starts with a voiced frame.
        have hvoice : frame.voiced = true := by
          by_contra hvoice
          rw [if_neg hvoice] at honset
          exact honset hpos
        simp [quietAfter, hvoice]
      · simp

/-! ### Decisions -/

theorem settle_long (h : Long clock c s) : settle clock c s = finish clock c s .maxDuration true := if_pos h

theorem settle_silent (hlong : ¬Long clock c s) (hsilent : Silent clock c s) :
    settle clock c s = finish clock c s .silence false := by
  rw [settle, if_neg hlong, if_pos hsilent]

theorem settle_on (hlong : ¬Long clock c s) (hsilent : ¬Silent clock c s) : settle clock c s = (s, none) := by
  rw [settle, if_neg hlong, if_neg hsilent]

theorem not_long_unlimited : ¬Long clock c.unlimited s := by
  rintro ⟨limit, hlimit, -⟩
  cases hlimit

theorem Related.speech (h : Related clock c s u chunks quiet) (hspeech : hasSpeech clock c s) :
    hasSpeech clock c.unlimited u := by
  cases hc : s.continuing with
  | true => exact .inl (h.continued hc).2
  | false =>
    obtain hvoiced | hc' := hspeech
    · exact .inl ((h.fresh hc).2.1 ▸ hvoiced)
    · rw [hc] at hc'
      cases hc'

/-- Without a limit all of the silence counts. -/
theorem Related.silent_iff (h : Related clock c s u chunks quiet) (hactive : s.active = true) :
    Silent clock c.unlimited u ↔ c.silenceS ≤ clock.seconds quiet := by
  have hlength : u.buffer.length - u.bufferedAtLastVoice = quiet := by
    have hwhole := h.whole hactive
    omega
  rw [Silent, hlength]
  rfl

theorem Related.silent_of_silent (h : Related clock c s u chunks quiet) (hactive : s.active = true)
    (hsilent : Silent clock c s) :
    c.silenceS ≤ clock.seconds quiet :=
  hsilent.trans (clock.mono (h.part hactive))

/-- A turn of which nothing has been told counts all of it too. -/
theorem Related.silent_of_fresh (h : Related clock c s u chunks quiet) (hactive : s.active = true)
    (hc : s.continuing = false)
    (hquiet : c.silenceS ≤ clock.seconds quiet) : Silent clock c s := by
  obtain ⟨rfl, -, hlast⟩ := h.fresh hc
  have hbuffer : u.buffer = s.buffer := h.buffer
  have hwhole := (h.silent_iff hactive).mpr hquiet
  rw [Silent, hlast, hbuffer] at hwhole
  exact hwhole

/-- Both states are reset alike. -/
theorem Related.reset (h : Related clock c s u chunks quiet) :
    Related clock c (s.reset false) (u.reset false) [] quiet :=
  ⟨rfl, h.preRoll, rfl, rfl, rfl, fun _ => ⟨rfl, rfl, rfl⟩, nofun, nofun, nofun, nofun⟩

/-- A chunk that has speech is cut off. -/
theorem Related.cut (h : Related clock c s u chunks quiet) (hactive : s.active = true) (hspeech : hasSpeech clock c s) :
    Related clock c (s.reset true) u (chunks ++ s.buffer) quiet where
  active := h.active.trans hactive
  preRoll := h.preRoll
  onset := h.onset.trans (h.begun hactive)
  buffer := h.buffer.trans (List.append_nil _).symm
  uncontinued := h.uncontinued
  fresh := nofun
  continued _ := ⟨rfl, (h.speech hspeech).resolve_right (by rw [h.uncontinued]; nofun)⟩
  whole _ := h.whole hactive
  part _ := Nat.zero_le _
  begun _ := rfl

/-! ### What is told -/

variable {frame : Frame} {frames : List Frame} {received : Nat} {es es' : List (Nat × Event F)}

/-- The joined chunks are what is told without a limit, and each turn that is not under way is started once. -/
def Agree (es es' : List (Nat × Event F)) (chunks : Bytes) (active : Bool) : Prop :=
  joined chunks es = spoken es' ∧ starts es + active.toNat = (joined chunks es).length

variable (clock c) in
/-- What happens from the decision about a frame on. -/
def decided (s : State) (received : Nat) (frames : List Frame) : List (Nat × Event F) :=
  (settle clock c s).2.toList.map (fun utterance => (received, .said utterance)) ++ events clock c
    (settle clock c s).1 received frames

theorem events_cons : events clock c s received (frame :: frames) = (receive clock c s frame).2.map
    (received + frame.pcm.length, ·) ++
    events clock c (receive clock c s frame).1 (received + frame.pcm.length) frames := rfl

theorem events_inactive (h : (listen clock c s frame).1.active = false) :
    events clock c s received (frame :: frames) = events clock c (listen clock c s frame).1
        (received + frame.pcm.length) frames := by
  simp [events, receive, h]

theorem events_active (h : (listen clock c s frame).1.active = true) : events clock c s received (frame :: frames) =
    (if (listen clock c s frame).2 then [(received + frame.pcm.length, .started)] else []) ++
      decided clock c (listen clock c s frame).1 (received + frame.pcm.length) frames := by
  cases hstarted : (listen clock c s frame).2 <;> simp [events, receive, decided, h, hstarted]

/-- A turn is under way after a frame where it starts with the frame, or was before. -/
theorem listen_started (h : (listen clock c s frame).1.active = true) : (listen clock c s frame).2 = !s.active := by
  cases hactive : s.active with
  | true => exact (listen_active hactive).2
  | false =>
    simp only [listen, hactive, Bool.false_eq_true, if_false] at h ⊢
    by_cases honset : (if frame.voiced = true then s.onsetVoicedBytes + frame.pcm.length else 0) <
      c.speechStartBytes clock
    · rw [if_pos honset] at h
      cases h
    · rw [if_neg honset]
      rfl

theorem agree_inactive (hr : Related clock c s u chunks quiet) (h : (listen clock c s frame).1.active = false) :
    Agree (events clock c s received (frame :: frames))
    (events clock c.unlimited u received (frame :: frames)) chunks s.active ↔
      Agree (events clock c (listen clock c s frame).1 (received + frame.pcm.length) frames)
        (events clock c.unlimited (listen clock c.unlimited u frame).1
          (received + frame.pcm.length) frames) chunks (listen clock c s frame).1.active := by
  have hu := (hr.listen frame).2.active.trans h
  have hs : s.active = false := by
    by_contra hs
    rw [(listen_active (Bool.eq_true_of_not_eq_false hs)).1] at h
    cases h
  rw [events_inactive h, events_inactive hu, h, hs]

theorem agree_active (hr : Related clock c s u chunks quiet) (h : (listen clock c s frame).1.active = true) :
    Agree (events clock c s received (frame :: frames))
    (events clock c.unlimited u received (frame :: frames)) chunks s.active ↔
      Agree (decided clock c (listen clock c s frame).1 (received + frame.pcm.length) frames)
        (decided clock c.unlimited (listen clock c.unlimited u frame).1
          (received + frame.pcm.length) frames) chunks true := by
  obtain ⟨hstarted, hheard⟩ := hr.listen frame
  rw [events_active h, events_active (hheard.active.trans h), hstarted, listen_started h]
  cases s.active <;> simp [Agree, joined, spoken, starts]

theorem finish_speech {reason : Reason} {continueTurn : Bool} (h : hasSpeech clock c s) :
    finish clock c s reason continueTurn =
    (s.reset continueTurn, some ⟨s.buffer, clock.seconds s.buffer.length, clock.seconds s.voicedBytes, reason⟩) := by
  rw [finish, if_pos h]

theorem finish_silent {reason : Reason} {continueTurn : Bool} (h : ¬hasSpeech clock c s) :
    finish clock c s reason continueTurn = (s.reset continueTurn, none) := by
  rw [finish, if_neg h]

theorem decided_on (hlong : ¬Long clock c s) (hsilent : ¬Silent clock c s) :
    decided clock c s received frames = events clock c s received frames := by
  rw [decided, settle_on hlong hsilent]
  rfl

theorem decided_long (h : Long clock c s) (hspeech : hasSpeech clock c s) : decided clock c s received frames =
    (received, .said ⟨s.buffer, clock.seconds s.buffer.length, clock.seconds s.voicedBytes, .maxDuration⟩) ::
      events clock c (s.reset true) received frames := by
  rw [decided, settle_long h, finish_speech hspeech]
  rfl

theorem decided_silent (hlong : ¬Long clock c s) (hsilent : Silent clock c s)
    (hspeech : hasSpeech clock c s) : decided clock c s received frames =
    (received, .said ⟨s.buffer, clock.seconds s.buffer.length, clock.seconds s.voicedBytes, .silence⟩) ::
      events clock c (s.reset false) received frames := by
  rw [decided, settle_silent hlong hsilent, finish_speech hspeech]
  rfl

/-- Where the silence is short, neither turn ends; a cut keeps what is told together. -/
theorem agree_short (h : Related clock c s u chunks quiet) (hactive : s.active = true)
    (hshort : ¬c.silenceS ≤ clock.seconds quiet)
    (hspeech : Long clock c s → hasSpeech clock c s) :
    ∃ chunks', Related clock c (settle clock c s).1 u chunks' quiet ∧ (settle clock c s).1.active = true ∧
      (Agree (decided clock c s received frames) (decided clock c.unlimited u received frames) chunks true ↔
        Agree (events clock c (settle clock c s).1 received frames)
            (events clock c.unlimited u received frames) chunks' true) := by
  have hu : ¬Silent clock c.unlimited u := fun hu => hshort ((h.silent_iff hactive).mp hu)
  have hs : ¬Silent clock c s := fun hs => hshort (h.silent_of_silent hactive hs)
  rw [decided_on not_long_unlimited hu]
  by_cases hlong : Long clock c s
  · refine ⟨chunks ++ s.buffer, ?_, ?_, ?_⟩
    · rw [settle_long hlong]
      exact h.cut hactive (hspeech hlong)
    · rw [settle_long hlong]
      rfl
    · rw [decided_long hlong (hspeech hlong), settle_long hlong]
      simp [Agree, joined, starts, finish]
  · rw [decided_on hlong hs, settle_on hlong hs]
    exact ⟨chunks, h, hactive, .rfl⟩

/-- Where both turns end, the same is told of them. -/
theorem agree_silent (h : Related clock c s u chunks quiet) (hactive : s.active = true)
    (hlong : ¬Long clock c s) (hsilent : Silent clock c s)
    (hspeech : hasSpeech clock c s) :
    Agree (decided clock c s received frames) (decided clock c.unlimited u received frames) chunks true ↔
      Agree (events clock c (s.reset false) received frames)
          (events clock c.unlimited (u.reset false) received frames) [] false := by
  have hu : Silent clock c.unlimited u := (h.silent_iff hactive).mpr (h.silent_of_silent hactive hsilent)
  rw [decided_silent hlong hsilent hspeech, decided_silent not_long_unlimited hu (h.speech hspeech)]
  simp [Agree, joined, spoken, starts, h.buffer]

/-- What is told of a turn that goes on is told after the next frame. -/
theorem received_lt {at' : Nat} {e : Event F} (hframes : ∀ frame ∈ frames, frame.pcm ≠ [])
    (h : (at', e) ∈ events clock c s received frames) :
    received ≤ at' ∧ (frames ≠ [] → received < at') := by
  induction frames generalizing s received with
  | nil =>
    obtain ⟨_, -, heq⟩ := List.mem_map.mp h
    cases heq
    exact ⟨Nat.le_refl _, fun h => absurd rfl h⟩
  | cons frame frames ih =>
    have hpos := List.length_pos_of_ne_nil (hframes frame (.head _))
    have hlt : received < at' := by
      rw [events_cons] at h
      obtain hnow | hlater := List.mem_append.mp h
      · obtain ⟨_, -, heq⟩ := List.mem_map.mp hnow
        cases heq
        omega
      · have hle := (ih (fun f hf => hframes f (.tail _ hf)) hlater).1
        omega
    exact ⟨Nat.le_of_lt hlt, fun _ => hlt⟩

/-- A turn that does not end goes on from the state after the decision, with the chunks told until then. -/
theorem decided_going (hactive : s.active = true) (hgoes : ¬(¬Long clock c s ∧ Silent clock c s))
    (hspeech : Long clock c s → hasSpeech clock c s)
    (chunks : Bytes) : ∃ chunks', chunks' ++ (settle clock c s).1.buffer = chunks ++ s.buffer ∧
    (settle clock c s).1.active = true ∧
      (hasSpeech clock c s → hasSpeech clock c (settle clock c s).1) ∧
      joined chunks (decided clock c s received frames) = joined chunks'
        (events clock c (settle clock c s).1 received frames) ∧
      starts (decided clock c s received frames) = starts (events clock c (settle clock c s).1 received frames) := by
  by_cases hlong : Long clock c s
  · rw [decided_long hlong (hspeech hlong), settle_long hlong]
    exact ⟨chunks ++ s.buffer, List.append_nil _, rfl, fun _ => .inr rfl, rfl, rfl⟩
  · have hsilent : ¬Silent clock c s := fun hsilent => hgoes ⟨hlong, hsilent⟩
    rw [decided_on hlong hsilent, settle_on hlong hsilent]
    exact ⟨chunks, rfl, hactive, id, rfl, rfl⟩

/-- Where only the turn without a limit ends, what is told agrees only at the end of the stream. -/
theorem agree_apart (h : Related clock c s u chunks quiet) (hactive : s.active = true)
    (hquiet : c.silenceS ≤ clock.seconds quiet)
    (hapart : ¬(¬Long clock c s ∧ Silent clock c s)) (hspeech : hasSpeech clock c s)
    (hframes : ∀ frame ∈ frames, frame.pcm ≠ []) :
    Agree (decided clock c s received frames) (decided clock c.unlimited u received frames) chunks true ↔
      frames = [] ∧ ¬c.minSpeechS ≤ clock.seconds 0 := by
  have hu : Silent clock c.unlimited u := (h.silent_iff hactive).mpr hquiet
  obtain ⟨chunks', hbuffer, -, hnext, hjoined, hstarts⟩ := decided_going hactive hapart (fun _ => hspeech) chunks
  rw [Agree, hjoined, hstarts, decided_silent not_long_unlimited hu (h.speech hspeech), spoken]
  cases frames with
  | nil =>
    have hend : events clock c (settle clock c s).1 received [] = [(received, .said ⟨(settle clock c s).1.buffer,
        clock.seconds (settle clock c s).1.buffer.length,
            clock.seconds (settle clock c s).1.voicedBytes, .streamEnd⟩)] := by
      rw [events, finish_speech (hnext hspeech)]
      rfl
    rw [hend, h.buffer]
    by_cases hmin : c.minSpeechS ≤ clock.seconds 0
    · have hempty : hasSpeech clock c.unlimited (u.reset false) := .inl hmin
      rw [events, finish_speech hempty]
      simp [joined, spoken, hmin]
    · have hempty : ¬hasSpeech clock c.unlimited (u.reset false) := fun hempty => hempty.elim hmin nofun
      rw [events, finish_silent hempty]
      simp [joined, spoken, starts, hbuffer, hmin]
  | cons frame frames =>
    refine ⟨fun hagree => ?_, fun hnil => absurd hnil.1 (List.cons_ne_nil _ _)⟩
    have hmem : (u.buffer, received) ∈ joined chunks'
        (events clock c (settle clock c s).1 received (frame :: frames)) := by
      rw [hagree.1]
      exact .head _
    obtain ⟨e, he⟩ := mem_joined hmem
    exact absurd ((received_lt hframes he).2 (List.cons_ne_nil _ _)) (Nat.lt_irrefl _)

/-! ### Whole streams -/

theorem receive_inactive (h : (listen clock c s frame).1.active = false) :
    (receive clock c s frame).1 = (listen clock c s frame).1 := by
  simp [receive, h]

theorem receive_active (h : (listen clock c s frame).1.active = true) :
    (receive clock c s frame).1 = (settle clock c (listen clock c s frame).1).1 := by
  simp [receive, h]

/-- A turn with silence enough that does not end has been told of, or grows long. -/
theorem Related.speaks (h : Related clock c s u chunks quiet) (hactive : s.active = true)
    (hquiet : c.silenceS ≤ clock.seconds quiet)
    (hends : Long clock c s ∨ Silent clock c s → hasSpeech clock c s) : hasSpeech clock c s := by
  cases hc : s.continuing with
  | true => exact .inr hc
  | false => exact hends (.inr (h.silent_of_fresh hactive hc hquiet))

/-- At the end the same is told, and a start for each, of a turn that has speech and of no turn without any. -/
theorem agree_end (h : Related clock c s u chunks quiet) :
    Agree (events clock c s received []) (events clock c.unlimited u received []) chunks s.active ↔
        (hasSpeech clock c s ↔ s.active = true) := by
  by_cases hspeech : hasSpeech clock c s
  · rw [events, events, finish_speech hspeech, finish_speech (h.speech hspeech)]
    cases s.active <;> simp [Agree, joined, spoken, starts, h.buffer, hspeech]
  · cases hactive : s.active with
    | true =>
      rw [events, finish_silent hspeech]
      simp [Agree, joined, starts, hspeech]
    | false =>
      have hu : ¬hasSpeech clock c.unlimited u := by
        have hc : s.continuing = false := by
          by_contra hc
          exact hspeech (.inr (Bool.eq_true_of_not_eq_false hc))
        rintro (hvoiced | hc')
        · exact hspeech (.inl ((h.fresh hc).2.1 ▸ hvoiced))
        · rw [h.uncontinued] at hc'
          cases hc'
      rw [events, events, finish_silent hspeech, finish_silent hu]
      simp [Agree, joined, spoken, starts, hspeech]

/-- Where no cut falls into the silence that ends a turn, the same is told. -/
theorem Related.agree (h : Related clock c s u chunks quiet) (huncut : Uncut clock c s quiet frames)
    (hframes : ∀ frame ∈ frames, frame.pcm ≠ []) :
    Agree (events clock c s received frames) (events clock c.unlimited u received frames) chunks s.active := by
  induction frames generalizing s u chunks quiet received with
  | nil => exact (agree_end h).mpr huncut
  | cons frame frames ih =>
    obtain ⟨hnow, hlater⟩ := huncut
    have hrest := fun f hf => hframes f (.tail frame hf)
    have hheard := (h.listen frame).2
    cases hactive : (Turns.listen clock c s frame).1.active with
    | false =>
      rw [agree_inactive h hactive]
      rw [receive_inactive hactive] at hlater
      exact ih hheard hlater hrest
    | true =>
      obtain ⟨hends, hcut⟩ := hnow hactive
      rw [agree_active h hactive]
      rw [receive_active hactive] at hlater
      by_cases hquiet : c.silenceS ≤ clock.seconds (quietAfter quiet frame)
      · have hspeech := hheard.speaks hactive hquiet hends
        by_cases hboth : ¬Long clock c (Turns.listen clock c s frame).1 ∧
          Silent clock c (Turns.listen clock c s frame).1
        · obtain ⟨hlong, hsilent⟩ := hboth
          rw [settle_silent hlong hsilent] at hlater
          exact (agree_silent hheard hactive hlong hsilent hspeech).mpr (ih hheard.reset hlater hrest)
        · refine (agree_apart hheard hactive hquiet hboth hspeech hrest).mpr
            ⟨?_, fun hmin => hboth (hcut (.inr hmin) hquiet)⟩
          by_contra hne
          exact hboth (hcut (.inl hne) hquiet)
      · obtain ⟨chunks', hrelated, hon, hagree⟩ := agree_short hheard hactive hquiet (fun hlong => hends (.inl hlong))
        rw [hagree, ← hon]
        exact ih hrelated hlater hrest

/-- A turn has speech. -/
def Speaks (clock : Clock F) (c : Thresholds F) (s : State) : Prop := s.active = true → hasSpeech clock c s

/-- A turn starts with enough speech, where the bytes for a start are enough. -/
theorem Speaks.listen (hreached : c.minSpeechS ≤ clock.seconds (c.speechStartBytes clock))
    (h : Speaks clock c s) (frame : Frame) :
    Speaks clock c (Turns.listen clock c s frame).1 := by
  intro hactive
  cases hs : s.active with
  | true =>
    obtain hvoiced | hc := h hs
    · refine .inl (hvoiced.trans (clock.mono ?_))
      simp only [Turns.listen, hs, if_true]
      cases frame.voiced with
      | true => exact Nat.le_add_right ..
      | false => exact Nat.le_refl _
    · simp only [Turns.listen, hs, if_true]
      exact .inr hc
  | false =>
    simp only [Turns.listen, hs, Bool.false_eq_true, if_false] at hactive ⊢
    by_cases honset : (if frame.voiced = true then s.onsetVoicedBytes + frame.pcm.length else 0) <
      c.speechStartBytes clock
    · rw [if_pos honset] at hactive
      cases hactive
    · rw [if_neg honset]
      exact .inl (hreached.trans (clock.mono (Nat.le_of_not_lt honset)))

theorem Speaks.settle (h : Speaks clock c s) : Speaks clock c (Turns.settle clock c s).1 := by
  by_cases hlong : Long clock c s
  · rw [settle_long hlong]
    exact fun _ => .inr rfl
  · by_cases hsilent : Silent clock c s
    · rw [settle_silent hlong hsilent]
      exact nofun
    · rw [settle_on hlong hsilent]
      exact h

/-- Where the same is told, no cut falls into the silence that ends a turn. -/
theorem Related.uncut (h : Related clock c s u chunks quiet)
    (hreached : c.minSpeechS ≤ clock.seconds (c.speechStartBytes clock))
    (hspeaks : Speaks clock c s) (hframes : ∀ frame ∈ frames, frame.pcm ≠ [])
    (hagree : Agree (events clock c s received frames) (events clock c.unlimited u received frames)
      chunks s.active) : Uncut clock c s quiet frames := by
  induction frames generalizing s u chunks quiet received with
  | nil => exact (agree_end h).mp hagree
  | cons frame frames ih =>
    have hrest := fun f hf => hframes f (.tail frame hf)
    have hheard := (h.listen frame).2
    have hlistens := hspeaks.listen hreached frame
    cases hactive : (Turns.listen clock c s frame).1.active with
    | false =>
      refine ⟨fun hon => absurd (hon.symm.trans hactive) nofun, ?_⟩
      rw [receive_inactive hactive]
      exact ih hheard hlistens hrest ((agree_inactive h hactive).mp hagree)
    | true =>
      have hspeech := hlistens hactive
      have hdecided := (agree_active h hactive).mp hagree
      refine ⟨fun _ => ⟨fun _ => hspeech, fun hgoes hquiet => ?_⟩, ?_⟩
      · by_contra hapart
        obtain ⟨rfl, hmin⟩ := (agree_apart hheard hactive hquiet hapart hspeech hrest).mp hdecided
        exact hgoes.elim (fun hne => hne rfl) hmin
      · rw [receive_active hactive]
        by_cases hquiet : c.silenceS ≤ clock.seconds (quietAfter quiet frame)
        · by_cases hboth : ¬Long clock c (Turns.listen clock c s frame).1 ∧
            Silent clock c (Turns.listen clock c s frame).1
          · obtain ⟨hlong, hsilent⟩ := hboth
            have hagree' := (agree_silent hheard hactive hlong hsilent hspeech).mp hdecided
            rw [settle_silent hlong hsilent]
            exact ih hheard.reset nofun hrest hagree'
          · -- The stream is at its end, where the turn still has speech.
            obtain ⟨rfl, -⟩ := (agree_apart hheard hactive hquiet hboth hspeech hrest).mp hdecided
            obtain ⟨-, -, hon, hnext, -, -⟩ := @decided_going _ _ _ _ _ []
              (received + frame.pcm.length) hactive hboth (fun _ => hspeech) chunks
            exact ⟨fun _ => hon, fun _ => hnext hspeech⟩
        · obtain ⟨chunks', hrelated, hon, hiff⟩ := agree_short hheard hactive hquiet (fun _ => hspeech)
          have hagree' := hiff.mp hdecided
          rw [← hon] at hagree'
          exact ih hrelated hlistens.settle hrest hagree'

end Detection

/-! ### The stream -/

theorem normalizedFrames_ne {pcm pending : Bytes} {stream : List AudioFrame}
    (h : pcm ∈ normalizedFrames pending stream) : pcm ≠ [] := by
  induction stream generalizing pending with
  | nil =>
    rw [normalizedFrames] at h
    split at h
    case isTrue => cases h
    case isFalse hne =>
      obtain rfl := List.mem_singleton.mp h
      exact hne
  | cons frame stream ih =>
    obtain hblock | hlater := List.mem_append.mp h
    · have hlength := (Blocks.isCut_cut (by decide) _).length pcm hblock
      rintro rfl
      cases hlength
    · exact ih hlater

theorem classified_ne {stream : List AudioFrame} {voiced : Nat → Bool} :
    ∀ frame ∈ classified stream voiced, frame.pcm ≠ [] := by
  intro frame hframe
  obtain ⟨⟨pcm, i⟩, hmem, rfl⟩ := List.mem_map.mp hframe
  exact normalizedFrames_ne (List.fst_mem_of_mem_zipIdx hmem)

/-- Where no cut falls into the silence that ends a turn, joining the chunks gives the turns that are told
without a limit, each started once; and only there, where the bytes for a start are enough speech. -/
theorem turns_joined_iff {F : Type} [LinearOrder F] (clock : Clock F) (c : Thresholds F)
    (stream : List AudioFrame) (voiced : Nat → Bool) :
    (Uncut clock c {} 0 (classified stream voiced) → Reassembled clock c stream voiced) ∧
      (c.minSpeechS ≤ clock.seconds (c.speechStartBytes clock) → Reassembled clock c stream voiced →
        Uncut clock c {} 0 (classified stream voiced)) :=
  ⟨fun huncut => Related.initial.agree huncut classified_ne,
    fun hreached hjoined => Related.initial.uncut hreached nofun classified_ne hjoined⟩

/-- Exact seconds at 96000 bytes each; the thresholds below are whole numbers of bytes. -/
def exact : Clock ℚ where
  seconds n := n / 96000
  bytes t := (t * 96000).floor
  mono a b h := div_le_div_of_nonneg_right (Nat.cast_le.mpr h) (by decide)

/-- 20 ms begin a turn and 40 ms of silence end it; it is cut at 60 ms. -/
def short : Thresholds ℚ := ⟨1 / 50, 1 / 50, 1 / 25, some (3 / 50), 1 / 50⟩

/-- One frame of sound. -/
def sound : AudioFrame := ⟨List.replicate frameBytes 0, by rw [List.length_replicate, frameBytes]⟩

theorem normalized_sound (stream : List AudioFrame) :
    normalizedFrames [] (sound :: stream) = sound.pcm :: normalizedFrames [] stream := by
  have hcut : Blocks.IsCut frameBytes [sound.pcm] [] sound.pcm :=
    ⟨by rw [List.flatten_singleton, List.append_nil], fun block hblock => by
      rw [List.mem_singleton.mp hblock]; exact List.length_replicate, by decide⟩
  obtain ⟨hblocks, hleft⟩ := Blocks.blocks_unique (Blocks.isCut_cut (by decide) sound.pcm) hcut
  rw [normalizedFrames, List.nil_append, hblocks, hleft]
  rfl

/-- Three voiced frames and two silent ones: the turn is cut with the third, before it falls silent. -/
example : Uncut exact short {} 0 (classified [sound, sound, sound, sound, sound] (· < 3)) := by
  have hframes : classified [sound, sound, sound, sound, sound] (· < 3) = [⟨sound.pcm, true⟩,
      ⟨sound.pcm, true⟩, ⟨sound.pcm, true⟩, ⟨sound.pcm, false⟩, ⟨sound.pcm, false⟩] := by
    simp only [classified, normalized_sound]
    rfl
  rw [hframes]
  decide +kernel

/-- A voiced frame and three silent ones. The silence is long enough with the third frame, when the turn is
cut as well: only the part of it after the cut counts from then on, and the turn ends with the stream. -/
theorem turn_outlasts_silence : ¬Reassembled exact short [sound, sound, sound, sound] (· = 0) ∧
    (joined [] (detectSpeechTurns exact short [sound, sound, sound, sound] (· = 0))).map (·.2) = [7680] ∧
      (spoken (detectSpeechTurns exact short.unlimited [sound, sound, sound, sound] (· = 0))).map (·.2) = [5760] := by
  have hframes : classified [sound, sound, sound, sound] (· = 0) =
      [⟨sound.pcm, true⟩, ⟨sound.pcm, false⟩, ⟨sound.pcm, false⟩, ⟨sound.pcm, false⟩] := by
    simp only [classified, normalized_sound]
    rfl
  have hjoined : (joined []
      (detectSpeechTurns exact short [sound, sound, sound, sound] (· = 0))).map (·.2) = [7680] := by
    rw [detectSpeechTurns, hframes]
    decide +kernel
  have hspoken :
      (spoken (detectSpeechTurns exact short.unlimited [sound, sound, sound, sound] (· = 0))).map
      (·.2) = [5760] := by
    rw [detectSpeechTurns, hframes]
    decide +kernel
  refine ⟨fun hreassembled => ?_, hjoined, hspoken⟩
  rw [hreassembled.1, hspoken] at hjoined
  cases hjoined

end Galaris.Voice.Turns
