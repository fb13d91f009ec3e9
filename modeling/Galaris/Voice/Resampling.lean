import Galaris.Base.Blocks
import Mathlib.Algebra.Order.Group.Int
import Mathlib.Data.List.Basic

/-! Raw speech as frames (`voice/audio.py`).

Speech at 24 kHz comes in chunks that are cut anywhere. `pcm_audio_frames` carries over half a sample, the
last sample, which its midpoint with the next one is still missing, and a frame that is not full; what it
yields are the frames of the whole speech, resampled at once (`frames_of_speech`). -/
namespace Galaris.Voice.Resampling

open Blocks

abbrev Bytes := List UInt8

def defaultSampleRate : Nat := 48000
def defaultChannels : Nat := 1
def frameMs : Nat := 20
def bytesPerSample : Nat := 2
def frameBytes : Nat := defaultSampleRate * defaultChannels * bytesPerSample * frameMs / 1000

/-! ### Samples -/

/-- `struct.unpack("<h")`. -/
def unpack (low high : UInt8) : Int := (BitVec.ofNat 16 (low.toNat + 256 * high.toNat)).toInt

/-- `struct.pack("<h")` of an integer of 16 bits. -/
def pack (n : Int) : Bytes :=
  let bits := (BitVec.ofInt 16 n).toNat
  [UInt8.ofNat (bits % 256), UInt8.ofNat (bits / 256)]

/-- `struct.iter_unpack("<h")`. -/
def unpackAll : Bytes → List Int
  | low :: high :: rest => unpack low high :: unpackAll rest
  | _ => []

/-- `int((left + right) / 2)`. -/
def midpoint (left right : Int) : Int := (left + right).tdiv 2

/-! ### The whole buffer -/

/-- `array("h", pcm)`, in the order of bytes of the host. -/
def arrayOf (bigEndian : Bool) : Bytes → List Int
  | first :: second :: rest =>
    (if bigEndian then unpack second first else unpack first second) :: arrayOf bigEndian rest
  | _ => []

/-- `array.tobytes`. -/
def toBytes (bigEndian : Bool) (samples : List Int) : Bytes :=
    samples.flatMap fun n => if bigEndian then (pack n).reverse else pack n

/-- `array.byteswap`. -/
def byteswap (samples : List Int) : List Int := arrayOf true (toBytes false samples)

/-- `output[start::2] = samples`. -/
def assign (output : List Int) (start : Nat) : List Int → List Int
  | [] => output
  | sample :: rest => assign (output.set start sample) (start + 2) rest

/-- `upsample_pcm_24k_to_48k`. -/
def upsample (bigEndian : Bool) (pcm : Bytes) : Except String Bytes :=
  if pcm.length % bytesPerSample ≠ 0 then .error "PCM audio ended with an incomplete sample"
  else
    let samples := arrayOf bigEndian pcm
    if samples = [] then .ok []
    else
      let samples := if bigEndian then byteswap samples else samples
      let output := assign (List.replicate (2 * samples.length) 0) 0 samples
      let output := assign output 1 (List.zipWith midpoint samples samples.tail)
      let output := output.set (output.length - 1) (samples.getLastD 0)
      .ok (toBytes bigEndian (if bigEndian then byteswap output else output))

/-! ### The stream -/

structure State where
  carry : Bytes := []
  sourceCarry : Bytes := []
  previousSample : Option Int := none

/-- The samples of a chunk: each is written with its midpoint when the next one is there. -/
def advance (carry : Bytes) (previous : Option Int) : List Int → Bytes × Option Int
  | [] => (carry, previous)
  | sample :: rest =>
    match previous with
    | some previous => advance (carry ++ pack previous ++ pack (midpoint previous sample)) (some sample) rest
    | none => advance carry (some sample) rest

/-- One turn of the loop: the frames that are yielded. -/
def chunkStep (sampleRate : Nat) (s : State) (chunk : Bytes) : List Bytes × State :=
  let s :=
    if sampleRate = defaultSampleRate then {s with carry := s.carry ++ chunk}
    else
      let source := s.sourceCarry ++ chunk
      let complete := source.length - source.length % bytesPerSample
      let (carry, previous) := advance s.carry s.previousSample (unpackAll (source.take complete))
      ⟨carry, source.drop complete, previous⟩
  ((cut frameBytes s.carry).1, {s with carry := (cut frameBytes s.carry).2})

/-- What comes after the loop. -/
def finish (sampleRate : Nat) (s : State) : List Bytes × Option String :=
  if s.sourceCarry ≠ [] then ([], some "streaming PCM ended with an incomplete sample")
  else
    let carry :=
      match s.previousSample with
      | some sample => if sampleRate = 24000 then s.carry ++ pack sample ++ pack sample else s.carry
      | none => s.carry
    if carry = [] then ([], none) else ([carry ++ List.replicate (frameBytes - carry.length) 0], none)

def stream (sampleRate : Nat) (s : State) : List Bytes → List Bytes × Option String
  | [] => finish sampleRate s
  | chunk :: rest =>
    let (frames, s) := chunkStep sampleRate s chunk
    (frames ++ (stream sampleRate s rest).1, (stream sampleRate s rest).2)

/-- `pcm_audio_frames`: the frames that are yielded, and what is raised after them. -/
def pcmAudioFrames (sampleRate channels : Nat) (chunks : List Bytes) : List Bytes × Option String :=
  if (sampleRate ≠ 24000 ∧ sampleRate ≠ defaultSampleRate) ∨ channels ≠ defaultChannels then
    ([], some "streaming PCM must use 24 or 48 kHz mono audio")
  else stream sampleRate {} chunks

/-! ### What the samples become -/

/-- Every sample but the last, with its midpoint. -/
def joined : List Int → Bytes
  | left :: right :: rest => pack left ++ pack (midpoint left right) ++ joined (right :: rest)
  | _ => []

/-- The last sample comes twice. -/
def resampled (samples : List Int) : Bytes :=
    joined samples ++ samples.getLast?.elim [] fun sample => pack sample ++ pack sample

theorem length_pack (n : Int) : (pack n).length = 2 := rfl

theorem pack_unpack (low high : UInt8) : pack (unpack low high) = [low, high] := by
  have hlow := low.toNat_lt
  have hhigh := high.toNat_lt
  have hbits : (BitVec.ofInt 16 (unpack low high)).toNat = low.toNat + 256 * high.toNat := by
    rw [unpack, BitVec.ofInt_toInt, BitVec.toNat_ofNat]
    omega
  have hfirst : UInt8.ofNat ((low.toNat + 256 * high.toNat) % 256) = low := by
    rw [show (low.toNat + 256 * high.toNat) % 256 = low.toNat by omega, UInt8.ofNat_toNat]
  have hsecond : UInt8.ofNat ((low.toNat + 256 * high.toNat) / 256) = high := by
    rw [show (low.toNat + 256 * high.toNat) / 256 = high.toNat by omega, UInt8.ofNat_toNat]
  rw [pack, hbits, hfirst, hsecond]

theorem length_joined (samples : List Int) : (joined samples).length = 4 * (samples.length - 1) := by
  fun_induction joined samples with
  | case1 left right rest ih =>
    simp only [List.length_append, length_pack, ih, List.length_cons]
    omega
  | case2 samples h =>
    cases samples with
    | nil => rfl
    | cons first rest =>
      cases rest with
      | nil => rfl
      | cons second rest => exact absurd rfl (h first second rest)

theorem joined_append (xs ys : List Int) : joined (xs ++ ys) = joined xs ++ joined (xs.getLast?.toList ++ ys) := by
  fun_induction joined xs with
  | case1 left right rest ih =>
    rw [List.cons_append, List.cons_append, joined, ← List.cons_append, ih, List.getLast?_cons_cons]
    simp only [List.append_assoc]
  | case2 xs h =>
    cases xs with
    | nil => rfl
    | cons first rest =>
      cases rest with
      | nil => rfl
      | cons second rest => exact absurd rfl (h first second rest)

theorem unpackAll_append {a : Bytes} (h : a.length % 2 = 0) (b : Bytes) :
    unpackAll (a ++ b) = unpackAll a ++ unpackAll b := by
  fun_induction unpackAll a with
  | case1 low high rest ih =>
    have hrest : rest.length % 2 = 0 := by
      rw [List.length_cons, List.length_cons] at h
      omega
    rw [List.cons_append, List.cons_append, unpackAll, ih hrest]
    rfl
  | case2 a hshort =>
    cases a with
    | nil => rfl
    | cons first rest =>
      cases rest with
      | nil => cases h
      | cons second rest => exact absurd rfl (hshort first second rest)

theorem advance_eq (carry : Bytes) (previous : Option Int) (samples : List Int) :
    advance carry previous samples =
        (carry ++ joined (previous.toList ++ samples), (previous.toList ++ samples).getLast?) := by
  induction samples generalizing carry previous with
  | nil => cases previous <;> simp [advance, joined]
  | cons sample rest ih =>
    cases previous with
    | none => simp [advance, ih]
    | some previous => simp [advance, ih, joined]

/-! ### The whole buffer, resampled -/

theorem arrayOf_little (pcm : Bytes) : arrayOf false pcm = unpackAll pcm := by
  fun_induction unpackAll pcm with
  | case1 low high rest ih => rw [arrayOf, ih]; rfl
  | case2 pcm h =>
    cases pcm with
    | nil => rfl
    | cons first rest =>
      cases rest with
      | nil => rfl
      | cons second rest => exact absurd rfl (h first second rest)

theorem byteswap_cons (n : Int) (samples : List Int) :
    byteswap (n :: samples) = arrayOf true (pack n) ++ byteswap samples := rfl

theorem byteswap_big (pcm : Bytes) : byteswap (arrayOf true pcm) = unpackAll pcm := by
  fun_induction unpackAll pcm with
  | case1 low high rest ih =>
    rw [arrayOf, byteswap_cons, if_pos rfl, pack_unpack, ih]
    rfl
  | case2 pcm h =>
    cases pcm with
    | nil => rfl
    | cons first rest =>
      cases rest with
      | nil => rfl
      | cons second rest => exact absurd rfl (h first second rest)

theorem toBytes_byteswap (samples : List Int) : toBytes true (byteswap samples) = toBytes false samples := by
  induction samples with
  | nil => rfl
  | cons n rest ih =>
    have hpack (low high : UInt8) : toBytes true (arrayOf true [low, high]) = [low, high] := by
      show (pack (unpack high low)).reverse ++ [] = _
      rw [pack_unpack]
      rfl
    have happend (a b : List Int) : toBytes true (a ++ b) = toBytes true a ++ toBytes true b := List.flatMap_append
    rw [byteswap_cons, happend, ih]
    exact congrArg (· ++ toBytes false rest) (hpack _ _)

/-- The first samples in turn with the second ones. -/
def interleave : List Int → List Int → List Int
  | x :: xs, y :: ys => x :: y :: interleave xs ys
  | _, _ => []

theorem interleave_replicate (n : Nat) :
    List.replicate (2 * n) (0 : Int) = interleave (List.replicate n 0) (List.replicate n 0) := by
  induction n with
  | zero => rfl
  | succ n ih =>
    show (0 : Int) :: 0 :: List.replicate (2 * n) 0 = 0 :: 0 :: interleave (List.replicate n 0) (List.replicate n 0)
    rw [ih]

theorem assign_first (before xs ys samples : List Int) (hx : xs.length = samples.length)
    (hy : ys.length = samples.length) :
    assign (before ++ interleave xs ys) before.length samples = before ++ interleave samples ys := by
  induction samples generalizing before xs ys with
  | nil =>
    cases List.eq_nil_of_length_eq_zero hx
    rfl
  | cons sample rest ih =>
    obtain ⟨x, xs, rfl⟩ := List.exists_cons_of_length_eq_add_one hx
    obtain ⟨y, ys, rfl⟩ := List.exists_cons_of_length_eq_add_one hy
    have hset : (before ++ interleave (x :: xs) (y :: ys)).set before.length sample =
        (before ++ [sample, y]) ++ interleave xs ys := by
      rw [List.set_append_right _ _ (Nat.le_refl _), Nat.sub_self, List.append_assoc]
      rfl
    have hrest := ih (before ++ [sample, y]) xs ys (Nat.succ.inj hx) (Nat.succ.inj hy)
    rw [List.length_append] at hrest
    rw [assign, hset, show before.length + 2 = before.length + [sample, y].length from rfl, hrest, List.append_assoc]
    rfl

theorem assign_second (before xs ys samples : List Int) (hx : samples.length ≤ xs.length) (hy : ys.length = xs.length) :
    assign (before ++ interleave xs ys) (before.length + 1) samples = before ++ interleave xs
        (samples ++ ys.drop samples.length) := by
  induction samples generalizing before xs ys with
  | nil => rfl
  | cons sample rest ih =>
    cases xs with
    | nil => cases hx
    | cons x xs =>
      obtain ⟨y, ys, rfl⟩ := List.exists_cons_of_length_eq_add_one hy
      have hset : (before ++ interleave (x :: xs) (y :: ys)).set (before.length + 1) sample =
          (before ++ [x, sample]) ++ interleave xs ys := by
        rw [List.set_append_right _ _ (Nat.le_add_right _ _), Nat.add_sub_cancel_left, List.append_assoc]
        rfl
      have hrest := ih (before ++ [x, sample]) xs ys (Nat.le_of_succ_le_succ hx) (Nat.succ.inj hy)
      rw [List.length_append] at hrest
      rw [assign, hset, show before.length + 1 + 2 = before.length + [x, sample].length + 1
        from rfl, hrest, List.append_assoc]
      rfl

theorem interleave_append {xs ys : List Int} (h : xs.length = ys.length) (x y : Int) :
    interleave (xs ++ [x]) (ys ++ [y]) = interleave xs ys ++ [x, y] := by
  induction xs generalizing ys with
  | nil =>
    cases List.eq_nil_of_length_eq_zero h.symm
    rfl
  | cons first xs ih =>
    obtain ⟨second, ys, rfl⟩ := List.exists_cons_of_length_eq_add_one h.symm
    exact congrArg (first :: second :: ·) (ih (Nat.succ.inj h))

theorem toBytes_interleave {samples : List Int} (h : samples ≠ []) :
    toBytes false (interleave samples (List.zipWith midpoint samples samples.tail ++
        [samples.getLastD 0])) = resampled samples := by
  induction samples with
  | nil => exact absurd rfl h
  | cons left rest ih =>
    cases rest with
    | nil => simp [interleave, toBytes, resampled, joined]
    | cons right rest =>
      have hrest := ih (List.cons_ne_nil _ _)
      rw [resampled, joined, List.getLast?_cons_cons, List.append_assoc, ← resampled, ← hrest]
      simp [interleave, toBytes]

/-- The output of `upsample`, before it is written as bytes. -/
theorem output_eq {samples : List Int} (h : samples ≠ []) :
    (assign (assign (List.replicate (2 * samples.length) 0) 0 samples) 1
      (List.zipWith midpoint samples samples.tail)).set
        ((assign (assign (List.replicate (2 * samples.length) 0) 0 samples) 1
          (List.zipWith midpoint samples samples.tail)).length - 1)
        (samples.getLastD 0) =
      interleave samples (List.zipWith midpoint samples samples.tail ++ [samples.getLastD 0]) := by
  have hfirst := assign_first [] (List.replicate samples.length 0)
      (List.replicate samples.length 0) samples List.length_replicate List.length_replicate
  have hmidpoints : (List.zipWith midpoint samples samples.tail).length = samples.length - 1 := by simp
  have hpositive := List.length_pos_iff.mpr h
  have hsecond := assign_second [] samples (List.replicate samples.length 0)
      (List.zipWith midpoint samples samples.tail) (by omega) List.length_replicate
  have hzero : (List.replicate samples.length (0 : Int)).drop
      (List.zipWith midpoint samples samples.tail).length = [0] := by
    rw [List.drop_replicate, hmidpoints, show samples.length - (samples.length - 1) = 1 by omega]
    rfl
  rw [List.nil_append, List.nil_append] at hfirst hsecond
  rw [hzero] at hsecond
  rw [interleave_replicate, show (0 : Nat) = ([] : List Int).length from rfl, hfirst,
    show 1 = ([] : List Int).length + 1 from rfl, hsecond]
  obtain ⟨before, last, hsamples⟩ : ∃ before last, samples = before ++ [last] :=
    ⟨_, _, (List.dropLast_append_getLast h).symm⟩
  have hbefore : before.length = (List.zipWith midpoint samples samples.tail).length := by
    rw [hmidpoints, hsamples, List.length_append]
    rfl
  generalize List.zipWith midpoint samples samples.tail = midpoints at hbefore
  rw [hsamples, interleave_append hbefore, interleave_append hbefore, List.length_append,
    List.set_append_right _ _ (by simp)]
  congr 1
  simp

theorem unpackAll_eq_nil {pcm : Bytes} (h : pcm.length % 2 = 0) : unpackAll pcm = [] ↔ pcm = [] := by
  cases pcm with
  | nil => exact ⟨fun _ => rfl, fun _ => rfl⟩
  | cons first rest =>
    cases rest with
    | nil => cases h
    | cons second rest => exact ⟨nofun, nofun⟩

/-- Whatever the order of bytes of the host is. -/
theorem upsample_eq (bigEndian : Bool) {pcm : Bytes} (h : pcm.length % 2 = 0) :
    upsample bigEndian pcm = .ok (resampled (unpackAll pcm)) := by
  have heven : ¬pcm.length % bytesPerSample ≠ 0 := not_not_intro h
  rw [upsample, if_neg heven]
  dsimp only
  by_cases hempty : pcm = []
  · subst hempty
    cases bigEndian <;> rfl
  · have hsamples : unpackAll pcm ≠ [] := mt (unpackAll_eq_nil h).mp hempty
    have hwritten := toBytes_interleave hsamples
    cases bigEndian with
    | false =>
      rw [arrayOf_little, if_neg hsamples, if_neg Bool.false_ne_true, if_neg Bool.false_ne_true,
        output_eq hsamples, hwritten]
    | true =>
      have harray : arrayOf true pcm ≠ [] := fun hnil => hsamples (by rw [← byteswap_big, hnil]; rfl)
      rw [if_neg harray, if_pos rfl, if_pos rfl, byteswap_big, output_eq hsamples, toBytes_byteswap, hwritten]

/-! ### The stream, resampled -/

/-- What has been received at 24 kHz: complete samples, which are written but for the last one, and the rest. -/
structure Received (received : Bytes) (frames : List Bytes) (s : State) (complete : Bytes) : Prop where
  split : received = complete ++ s.sourceCarry
  even : complete.length % 2 = 0
  half : s.sourceCarry.length < 2
  previous : s.previousSample = (unpackAll complete).getLast?
  frames : IsCut frameBytes frames s.carry (joined (unpackAll complete))

theorem received_initial : Received [] [] {} [] := ⟨rfl, rfl, by decide, rfl, rfl, nofun, by decide⟩

theorem Received.chunk {received complete : Bytes} {frames : List Bytes} {s : State}
    (h : Received received frames s complete) (chunk : Bytes) :
    ∃ complete', Received (received ++ chunk) (frames ++ (chunkStep 24000 s chunk).1)
    (chunkStep 24000 s chunk).2 complete' := by
  generalize hsource : s.sourceCarry ++ chunk = source
  generalize hlength : source.length - source.length % bytesPerSample = length
  have hstep : chunkStep 24000 s chunk =
      ((cut frameBytes (s.carry ++ joined (s.previousSample.toList ++ unpackAll (source.take length)))).1,
        ⟨(cut frameBytes (s.carry ++ joined
          (s.previousSample.toList ++ unpackAll (source.take length)))).2, source.drop length,
          (s.previousSample.toList ++ unpackAll (source.take length)).getLast?⟩) := by
    rw [chunkStep, if_neg (by decide)]
    dsimp only
    rw [hsource, hlength, advance_eq]
  have hlengths : length ≤ source.length ∧ length % 2 = 0 ∧ source.length - length < 2 := by
    unfold bytesPerSample at hlength
    omega
  have htaken : (source.take length).length = length := List.length_take_of_le hlengths.1
  have hsamples := unpackAll_append h.even (source.take length)
  refine ⟨complete ++ source.take length, ?_⟩
  rw [hstep]
  refine ⟨?_, ?_, ?_, ?_, ?_⟩
  · rw [h.split, List.append_assoc, hsource, List.append_assoc, List.take_append_drop]
  · rw [List.length_append, htaken]
    have heven := h.even
    omega
  · rw [List.length_drop]
    exact hlengths.2.2
  · rw [hsamples, h.previous, List.getLast?_append, List.getLast?_append]
    cases (unpackAll complete).getLast? <;> simp
  · rw [hsamples, joined_append (unpackAll complete), ← h.previous]
    exact h.frames.append (isCut_cut (by decide) _)

theorem replicate_short {carry : Bytes} (h : carry ≠ []) : frameBytes - carry.length < frameBytes := by
  have hpositive := List.length_pos_iff.mpr h
  have hframe : 0 < frameBytes := by decide
  omega

/-- What is yielded for speech that is written as frames, with zeros behind it. -/
structure Framed (speech : Bytes) (frames : List Bytes) : Prop where
  length : ∀ frame ∈ frames, frame.length = frameBytes
  padded : ∃ zeros, zeros < frameBytes ∧ frames.flatten = speech ++ List.replicate zeros 0

/-- The last frame is padded. -/
theorem framed_padded {speech carry : Bytes} {frames : List Bytes} (hjoined : frames.flatten ++ carry = speech)
    (hlength : ∀ frame ∈ frames, frame.length = frameBytes) (hcarry : carry.length ≤ frameBytes) :
    Framed speech (frames ++ if carry = [] then [] else [carry ++ List.replicate (frameBytes - carry.length) 0]) := by
  by_cases hempty : carry = []
  · rw [if_pos hempty, List.append_nil]
    rw [hempty, List.append_nil] at hjoined
    exact ⟨hlength, 0, by decide, by rw [hjoined]; exact (List.append_nil _).symm⟩
  · rw [if_neg hempty]
    refine ⟨fun frame hframe => ?_, frameBytes - carry.length, replicate_short hempty, ?_⟩
    · obtain hold | hlast := List.mem_append.mp hframe
      · exact hlength frame hold
      · rw [List.mem_singleton.mp hlast, List.length_append, List.length_replicate]
        omega
    · rw [List.flatten_append, List.flatten_singleton, ← List.append_assoc, hjoined]

/-- What a stream yields in all, and how it ends. -/
structure Yields (speech : Bytes) (frames : List Bytes) (raised : Option String) : Prop where
  even : speech.length % 2 = 0 → raised = none ∧ Framed (resampled (unpackAll speech)) frames
  odd : speech.length % 2 ≠ 0 → raised = some "streaming PCM ended with an incomplete sample" ∧
    ∃ carry, IsCut frameBytes frames carry (joined (unpackAll speech.dropLast))

theorem Received.finish {received complete : Bytes} {frames : List Bytes} {s : State}
    (h : Received received frames s complete) :
    Yields received (frames ++ (finish 24000 s).1) (finish 24000 s).2 := by
  have hlength : received.length = complete.length + s.sourceCarry.length := by rw [h.split, List.length_append]
  have heven := h.even
  have hhalf := h.half
  constructor
  · intro hwhole
    have hcarry : s.sourceCarry = [] := List.eq_nil_of_length_eq_zero (by omega)
    have hreceived : received = complete := by rw [h.split, hcarry, List.append_nil]
    rw [Resampling.finish, if_neg (not_not_intro hcarry), h.previous, hreceived]
    dsimp only
    generalize hwritten : (match (unpackAll complete).getLast? with
      | some sample => if (24000 : Nat) = 24000 then s.carry ++ pack sample ++ pack sample else s.carry
      | none => s.carry) = carry
    have hlast : carry = s.carry ++ (unpackAll complete).getLast?.elim [] fun sample => pack sample ++ pack sample := by
      rw [← hwritten]
      cases (unpackAll complete).getLast? with
      | none => exact (List.append_nil _).symm
      | some sample => exact List.append_assoc ..
    have hjoined : frames.flatten ++ carry = resampled (unpackAll complete) := by
      rw [hlast, ← List.append_assoc, h.frames.joined, resampled]
    -- The carry and the frames are whole pairs of samples, so that one more pair fits.
    have hshort : carry.length ≤ frameBytes := by
      have hpairs := h.frames.length_eq
      rw [length_joined] at hpairs
      have hcut := h.frames.short
      have hframe : frameBytes = 1920 := rfl
      rw [hframe] at hpairs hcut ⊢
      rw [hlast, List.length_append]
      cases (unpackAll complete).getLast? with
      | none =>
        rw [Option.elim_none, List.length_nil]
        omega
      | some sample =>
        rw [Option.elim_some, List.length_append, length_pack]
        omega
    have hframed := framed_padded hjoined h.frames.length hshort
    by_cases hempty : carry = []
    · rw [if_pos hempty] at hframed ⊢
      exact ⟨rfl, hframed⟩
    · rw [if_neg hempty] at hframed ⊢
      exact ⟨rfl, hframed⟩
  · intro hwhole
    have hcarry : s.sourceCarry ≠ [] := fun hnil => hwhole (by rw [hlength, hnil]; exact heven)
    rw [Resampling.finish, if_pos hcarry, List.append_nil]
    have hpositive := List.length_pos_iff.mpr hcarry
    obtain ⟨half, hsource⟩ := List.length_eq_one_iff.mp (show s.sourceCarry.length = 1 by omega)
    refine ⟨rfl, s.carry, ?_⟩
    rw [h.split, hsource, List.dropLast_concat]
    exact h.frames

theorem Received.stream {received complete : Bytes} {frames : List Bytes} {s : State}
    (h : Received received frames s complete) (chunks : List Bytes) :
    Yields (received ++ chunks.flatten) (frames ++ (stream 24000 s chunks).1) (stream 24000 s chunks).2 := by
  induction chunks generalizing received complete frames s with
  | nil =>
    rw [List.flatten_nil, List.append_nil]
    exact h.finish
  | cons chunk rest ih =>
    obtain ⟨complete', hchunk⟩ := h.chunk chunk
    have hrest := ih hchunk
    rw [List.append_assoc, List.append_assoc] at hrest
    exact hrest

/-- What has been received at 48 kHz. -/
theorem copied_stream {received : Bytes} {frames : List Bytes} {carry : Bytes}
    (h : IsCut frameBytes frames carry received) (chunks : List Bytes) :
    (stream 48000 ⟨carry, [], none⟩ chunks).2 = none ∧
    Framed (received ++ chunks.flatten) (frames ++ (stream 48000 ⟨carry, [], none⟩ chunks).1) := by
  induction chunks generalizing received frames carry with
  | nil =>
    have hframed := framed_padded h.joined h.length (Nat.le_of_lt h.short)
    rw [List.flatten_nil, List.append_nil, stream, finish, if_neg (not_not_intro rfl)]
    dsimp only
    by_cases hempty : carry = []
    · rw [if_pos hempty] at hframed ⊢
      exact ⟨rfl, hframed⟩
    · rw [if_neg hempty] at hframed ⊢
      exact ⟨rfl, hframed⟩
  | cons chunk rest ih =>
    have hrest := ih (h.append (isCut_cut (by decide) (carry ++ chunk)))
    rw [List.append_assoc, List.append_assoc] at hrest
    exact hrest

/-- Frames of one length with fewer zeros than a frame behind the speech are those of the speech. -/
theorem Framed.unique {speech : Bytes} {frames frames' : List Bytes} (h : Framed speech frames)
    (h' : Framed speech frames') : frames = frames' := by
  have hcut {frames : List Bytes} (h : Framed speech frames) : IsCut frameBytes frames [] frames.flatten :=
    ⟨List.append_nil _, h.length, by decide⟩
  obtain ⟨zeros, hzeros, hflatten⟩ := h.padded
  obtain ⟨zeros', hzeros', hflatten'⟩ := h'.padded
  have hlength := (hcut h).length_eq
  have hlength' := (hcut h').length_eq
  have hframe : frameBytes = 1920 := rfl
  rw [hflatten, List.length_append, List.length_replicate, List.length_nil, hframe] at hlength
  rw [hflatten', List.length_append, List.length_replicate, List.length_nil, hframe] at hlength'
  have hsame : zeros = zeros' := by omega
  have heq : frames'.flatten = frames.flatten := by rw [hflatten, hflatten', hsame]
  exact (blocks_unique (hcut h) (heq ▸ hcut h')).1

theorem framed_nil : Framed [] [] := ⟨nofun, 0, by decide, rfl⟩

/-- The frames are those of the whole speech, resampled at once, whatever chunks it comes in; and where half
a sample is left both raise. -/
theorem frames_of_speech (bigEndian : Bool) (chunks : List Bytes) :
    (chunks.flatten.length % 2 = 0 → ∃ speech, upsample bigEndian chunks.flatten = .ok speech ∧
      (pcmAudioFrames 24000 1 chunks).2 = none ∧
      Framed speech (pcmAudioFrames 24000 1 chunks).1) ∧
    (chunks.flatten.length % 2 ≠ 0 →
      upsample bigEndian chunks.flatten = .error "PCM audio ended with an incomplete sample" ∧
      (pcmAudioFrames 24000 1 chunks).2 = some "streaming PCM ended with an incomplete sample" ∧
      (∀ frame ∈ (pcmAudioFrames 24000 1 chunks).1, frame.length = frameBytes) ∧
      ∃ speech, upsample bigEndian chunks.flatten.dropLast = .ok speech ∧
      (pcmAudioFrames 24000 1 chunks).1.flatten <+: speech) ∧
    ((pcmAudioFrames 48000 1 chunks).2 = none ∧ Framed chunks.flatten (pcmAudioFrames 48000 1 chunks).1) ∧
    (chunks.flatten = [] → (pcmAudioFrames 24000 1 chunks).1 = [] ∧ (pcmAudioFrames 48000 1 chunks).1 = []) ∧
    ∀ others : List Bytes, others.flatten = chunks.flatten →
    pcmAudioFrames 24000 1 others = pcmAudioFrames 24000 1 chunks ∧
      pcmAudioFrames 48000 1 others = pcmAudioFrames 48000 1 chunks := by
  have hyields (chunks : List Bytes) :
      Yields chunks.flatten (pcmAudioFrames 24000 1 chunks).1 (pcmAudioFrames 24000 1 chunks).2 :=
    received_initial.stream chunks
  have hcopied (chunks : List Bytes) : (pcmAudioFrames 48000 1 chunks).2 = none ∧
      Framed chunks.flatten (pcmAudioFrames 48000 1 chunks).1 :=
    copied_stream received_initial.frames chunks
  have hresampled := hyields chunks
  refine ⟨fun heven => ?_, fun hodd => ?_, hcopied chunks, fun hempty => ?_, fun others hothers => ?_⟩
  · obtain ⟨hends, hframed⟩ := hresampled.even heven
    exact ⟨_, upsample_eq bigEndian heven, hends, hframed⟩
  · obtain ⟨hraises, carry, hcut⟩ := hresampled.odd hodd
    have hcomplete : chunks.flatten.dropLast.length % 2 = 0 := by
      rw [List.length_dropLast]
      omega
    refine ⟨if_pos hodd, hraises, hcut.length, _, upsample_eq bigEndian hcomplete, ?_⟩
    rw [resampled, ← hcut.joined, List.append_assoc]
    exact List.prefix_append _ _
  · have hframed := (hresampled.even (by rw [hempty]; rfl)).2
    have hcopied := (hcopied chunks).2
    rw [hempty] at hframed hcopied
    exact ⟨hframed.unique framed_nil, hcopied.unique framed_nil⟩
  · have hother := hyields others
    have hcopiedOther := hcopied others
    rw [hothers] at hother hcopiedOther
    refine ⟨Prod.ext ?_ ?_, Prod.ext (hcopiedOther.2.unique (hcopied chunks).2)
      (hcopiedOther.1.trans (hcopied chunks).1.symm)⟩
    · by_cases heven : chunks.flatten.length % 2 = 0
      · exact (hother.even heven).2.unique (hresampled.even heven).2
      · obtain ⟨-, carry, hcut⟩ := hresampled.odd heven
        obtain ⟨-, carry', hcut'⟩ := hother.odd heven
        exact (blocks_unique hcut' hcut).1
    · by_cases heven : chunks.flatten.length % 2 = 0
      · exact (hother.even heven).1.trans (hresampled.even heven).1.symm
      · exact (hother.odd heven).1.trans (hresampled.odd heven).1.symm

end Galaris.Voice.Resampling
