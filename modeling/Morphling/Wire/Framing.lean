import Morphling.Lib.Bytes
import Morphling.Lib.PrefixCode

/-!
# Frames in the input buffer (`proxy_svr.cpp`, `proxy_cli.cpp`, `connection_libevent.h`)

Both ends of a connection read their input buffer in the same loop: the length of the next frame is
copied out, and once the whole frame is there it is passed to `DecodeAndDispatch` and drained.

* `ConnectionLibevent.inbuf` is the buffer; it is gone once the connection was closed
  (`bev_wrapper_ == NULL`).
* `DecodeAndDispatch` is a parameter, told what it was called with so far. It may close the
  connection (`ForceClose`), and it may not return (`LOG_FATAL`, an exception that nobody catches).
* `Side.serve_frames`: however a stream arrives, the calls are the frames of the stream.
-/

namespace Morphling.Wire

open Bytes PrefixCode List

/-- What a call of `DecodeAndDispatch` leaves behind. -/
inductive Dispatched where
  /-- It returned, and the connection is open. -/
  | returns
  /-- It returned, and the connection was closed. -/
  | closes
  /-- It did not return. -/
  | dies
  deriving DecidableEq, Repr

/-- The bytes that the pointer argument points to, and the size argument. -/
abbrev Call := List UInt8 × Nat

/-- A connection with its input buffer, and the calls of `DecodeAndDispatch` so far. -/
structure ConnectionLibevent where
  inbuf : Option (List UInt8) := some []
  calls : List Call := []
  running : Bool := true
  deriving DecidableEq, Repr

/-- `ntohl` of a zeroed `uint32_t` over whose first bytes `got` was copied. -/
def packsize (got : List UInt8) : Nat := ofBE (got ++ List.replicate (4 - got.length) 0)

namespace ConnectionLibevent

variable (dispatch : List Call → Dispatched) (c : ConnectionLibevent)

/-- `ReadableLength` as a `size_t`: the `-1` of a closed connection wraps around. -/
def readableLength : Nat :=
  match c.inbuf with
  | none => 2 ^ 64 - 1
  | some b => b.length

/-- `ReceiveData` (`evbuffer_copyout`): up to `n` bytes, which stay in the buffer. -/
def receiveData (n : Nat) : Option (List UInt8) := c.inbuf.map (·.take n)

/-- `PullupData` (`evbuffer_pullup`): null when the buffer is shorter. -/
def pullupData (n : Nat) : Option (List UInt8) :=
  c.inbuf.bind fun b => if n ≤ b.length then some (b.take n) else none

/-- `DrainData` (`evbuffer_drain`). -/
def drainData (n : Nat) : Option ConnectionLibevent :=
  c.inbuf.map fun b => { c with inbuf := some (b.drop n) }

/-- The call of `DecodeAndDispatch`. -/
def decodeAndDispatch (raw : List UInt8) (size : Nat) : ConnectionLibevent :=
  let calls := c.calls ++ [(raw, size)]
  match dispatch calls with
  | .returns => { c with calls := calls }
  | .closes => { c with calls := calls, inbuf := none }
  | .dies => { c with calls := calls, running := false }

/-- The loop of `RequestCb`, for at most `fuel` rounds. -/
def requestLoop : Nat → ConnectionLibevent → Option ConnectionLibevent
  | 0, _ => none
  | fuel + 1, c =>
    let readable := c.readableLength
    match c.receiveData 4 with
    | none => some c
    | some got =>
      let datasize := packsize got + 4
      if readable < datasize then some c
      else
        match c.pullupData datasize with
        | none => some c
        | some raw =>
          let c := c.decodeAndDispatch dispatch raw datasize
          if c.running then
            match c.drainData datasize with
            | none => some c
            | some c => requestLoop fuel c
          else some c

/-- Every round drains at least the four bytes of a length. -/
def requestCb : Option ConnectionLibevent :=
  requestLoop dispatch ((c.inbuf.getD []).length + 1) c

/-- Bytes that arrive go to the end of the buffer. -/
def arrive (chunk : List UInt8) : ConnectionLibevent := { c with inbuf := c.inbuf.map (· ++ chunk) }

/-- `RequestCb` runs after each arrival. -/
def serve (cb : ConnectionLibevent → Option ConnectionLibevent) :
    ConnectionLibevent → List (List UInt8) → Option ConnectionLibevent
  | c, [] => some c
  | c, chunk :: chunks =>
    if c.running then (cb (c.arrive chunk)).bind fun c => serve cb c chunks else some c

end ConnectionLibevent

/-- `ProxySvrHandle::RequestCb`. -/
def ProxySvrHandle.requestCb (dispatch : List Call → Dispatched) (conn : ConnectionLibevent) :
    Option ConnectionLibevent :=
  conn.requestCb dispatch

/-- `ProxyCliImpl::RequestCb`. -/
def ProxyCliImpl.requestCb (dispatch : List Call → Dispatched) (conn : ConnectionLibevent) :
    Option ConnectionLibevent :=
  conn.requestCb dispatch

/-- The two ends of a connection. -/
inductive Side where
  | server
  | client
  deriving DecidableEq, Repr

def Side.requestCb :
    Side → (List Call → Dispatched) → ConnectionLibevent → Option ConnectionLibevent
  | .server => ProxySvrHandle.requestCb
  | .client => ProxyCliImpl.requestCb

/-! ## Frames -/

/-- A length in four bytes, most significant first, and as many bytes. -/
def IsFrame (f : List UInt8) : Prop :=
  ∃ n payload, n < 2 ^ 32 ∧ payload.length = n ∧ f = toBE 4 n ++ payload

theorem isFrame_iff {f : List UInt8} :
    IsFrame f ↔ 4 ≤ f.length ∧ f.length = ofBE (f.take 4) + 4 := by
  constructor
  · rintro ⟨n, payload, hn, hlen, rfl⟩
    have htake : (toBE 4 n ++ payload).take 4 = toBE 4 n := by simp
    rw [htake, ofBE_toBE (by simpa using hn)]
    simp only [length_append, length_toBE]
    omega
  · rintro ⟨h4, hlen⟩
    have htake : (f.take 4).length = 4 := by simp [h4]
    refine ⟨ofBE (f.take 4), f.drop 4, ?_, ?_, ?_⟩
    · simpa [htake] using ofBE_lt (f.take 4)
    · rw [length_drop]; omega
    · rw [show toBE 4 (ofBE (f.take 4)) = f.take 4 by
        simpa [htake] using toBE_ofBE (f.take 4), take_append_drop]

theorem isPrefixFree_isFrame : IsPrefixFree IsFrame := by
  intro f g hf hg hfg
  rw [isFrame_iff] at hf hg
  have htake : f.take 4 = g.take 4 := by
    obtain ⟨t, rfl⟩ := hfg
    rw [take_append_of_le_length hf.1]
  exact hfg.eq_of_length (by rw [hf.2, hg.2, htake])

variable {b : List UInt8}

theorem packsize_take (h : 4 ≤ b.length) : packsize (b.take 4) = ofBE (b.take 4) := by
  simp [packsize, h]

/-- A buffer that the loop finds too short starts with no frame. -/
theorem not_prefix_of_short {f : List UInt8} (h : b.length < packsize (b.take 4) + 4)
    (hf : IsFrame f) : ¬ f <+: b := by
  intro hfb
  rw [isFrame_iff] at hf
  have hle := hfb.length_le
  have htake : f.take 4 = b.take 4 := by
    obtain ⟨t, rfl⟩ := hfb
    rw [take_append_of_le_length hf.1]
  rw [packsize_take (by omega), ← htake] at h
  omega

/-- What the loop takes off a longer buffer is a frame. -/
theorem isFrame_take (h : packsize (b.take 4) + 4 ≤ b.length) :
    IsFrame (b.take (packsize (b.take 4) + 4)) := by
  rw [packsize_take (by omega)] at h ⊢
  rw [isFrame_iff, take_take, Nat.min_eq_left (by omega), length_take,
    Nat.min_eq_left h]
  exact ⟨by omega, rfl⟩

theorem exists_cut (s : List UInt8) : ∃ fs rest, Cut IsFrame s fs rest := by
  induction hn : s.length using Nat.strongRecOn generalizing s with
  | ind n ih =>
    by_cases h : s.length < packsize (s.take 4) + 4
    · exact ⟨[], s, .nil fun f hf => not_prefix_of_short h hf⟩
    · have hle : packsize (s.take 4) + 4 ≤ s.length := by omega
      obtain ⟨fs, rest, hcut⟩ := ih _ (by rw [length_drop]; omega)
        (s.drop (packsize (s.take 4) + 4)) rfl
      have := Cut.cons (isFrame_take hle) hcut
      rw [take_append_drop] at this
      exact ⟨_, rest, this⟩

/-! ## The loop -/

/-- The call that passes on a frame. -/
def callOf (f : List UInt8) : Call := (f, f.length)

namespace ConnectionLibevent

variable {dispatch : List Call → Dispatched} {c : ConnectionLibevent} {b rest s : List UInt8}
  {fs : List (List UInt8)} {fuel : Nat}

/-- A call was the last one: it did not return with the connection open. -/
structure Stopped (dispatch : List Call → Dispatched) (c : ConnectionLibevent) : Prop where
  called : c.calls ≠ []
  last : dispatch c.calls ≠ .returns
  gone : c.inbuf = none ∨ c.running = false

/-- The frames `fs` were there and `rest` is left: all of them were passed on, or those up to the
last call. -/
def Progress (dispatch : List Call → Dispatched) (fs : List (List UInt8)) (rest : List UInt8)
    (c : ConnectionLibevent) : Prop :=
  c = ⟨some rest, fs.map callOf, true⟩ ∨ (c.Stopped dispatch ∧ c.calls <+: fs.map callOf)

theorem requestLoop_short (hb : c.inbuf = some b) (h : b.length < packsize (b.take 4) + 4) :
    requestLoop dispatch (fuel + 1) c = some c := by
  simp [requestLoop, receiveData, readableLength, hb, h]

theorem requestLoop_frame {calls : List Call} (h : packsize (b.take 4) + 4 ≤ b.length) :
    requestLoop dispatch (fuel + 1) ⟨some b, calls, true⟩ =
      let f := b.take (packsize (b.take 4) + 4)
      let calls := calls ++ [callOf f]
      match dispatch calls with
      | .returns =>
        requestLoop dispatch fuel ⟨some (b.drop (packsize (b.take 4) + 4)), calls, true⟩
      | .closes => some ⟨none, calls, true⟩
      | .dies => some ⟨some b, calls, false⟩ := by
  have hcall : callOf (b.take (packsize (b.take 4) + 4)) =
      (b.take (packsize (b.take 4) + 4), packsize (b.take 4) + 4) := by
    simp [callOf, h]
  -- The round reads its own result, so the three ways a call ends are told apart first.
  cases hd : dispatch (calls ++ [(b.take (packsize (b.take 4) + 4), packsize (b.take 4) + 4)]) <;>
    simp [requestLoop, receiveData, readableLength, pullupData, decodeAndDispatch, drainData,
      hcall, hd, h, Nat.not_lt.mpr h]

/-- One run passes on the frames of the buffer, after those `done` before. -/
theorem requestLoop_progress (dispatch : List Call → Dispatched) (fuel : Nat)
    (done : List (List UInt8)) (b : List UInt8) (hfuel : b.length < fuel) :
    ∃ c fs rest, requestLoop dispatch fuel ⟨some b, done.map callOf, true⟩ = some c ∧
      Cut IsFrame b fs rest ∧ Progress dispatch (done ++ fs) rest c := by
  induction fuel generalizing done b with
  | zero => omega
  | succ fuel ih =>
    by_cases h : b.length < packsize (b.take 4) + 4
    · exact ⟨_, [], b, requestLoop_short rfl h, .nil fun f hf => not_prefix_of_short h hf,
        .inl (by simp)⟩
    have hle : packsize (b.take 4) + 4 ≤ b.length := by omega
    generalize hf : b.take (packsize (b.take 4) + 4) = f
    have hframe : IsFrame f := hf ▸ isFrame_take hle
    have hsplit : f ++ b.drop (packsize (b.take 4) + 4) = b := by
      rw [← hf, take_append_drop]
    have hcalls : done.map callOf ++ [callOf f] = (done ++ [f]).map callOf := by simp
    rw [requestLoop_frame hle]
    simp only [hf, hcalls]
    -- The frames behind the last call are those of the stream, although nobody looks at them.
    obtain ⟨fs', rest', hcut'⟩ := exists_cut (b.drop (packsize (b.take 4) + 4))
    have hlast : (done ++ [f]).map callOf <+: (done ++ f :: fs').map callOf :=
      ⟨fs'.map callOf, by simp⟩
    cases hd : dispatch ((done ++ [f]).map callOf) with
    | returns =>
      obtain ⟨c, fs, rest, hrun, hcut, hprog⟩ := ih (done ++ [f])
        (b.drop (packsize (b.take 4) + 4)) (by rw [length_drop]; omega)
      exact ⟨c, f :: fs, rest, hrun, hsplit ▸ hcut.cons hframe, by simpa using hprog⟩
    | closes =>
      exact ⟨_, f :: fs', rest', rfl, hsplit ▸ hcut'.cons hframe,
        .inr ⟨⟨by simp, hd ▸ nofun, .inl rfl⟩, hlast⟩⟩
    | dies =>
      exact ⟨_, f :: fs', rest', rfl, hsplit ▸ hcut'.cons hframe,
        .inr ⟨⟨by simp, hd ▸ nofun, .inr rfl⟩, hlast⟩⟩

/-! ## Arrivals -/

/-- The stream `s` has arrived. -/
def Received (dispatch : List Call → Dispatched) (s : List UInt8) (c : ConnectionLibevent) : Prop :=
  ∃ fs rest, Cut IsFrame s fs rest ∧ Progress dispatch fs rest c

/-- Bytes that arrive after the last call change nothing in what was received. -/
theorem Stopped.received (t : List UInt8) (hs : c.Stopped dispatch) (hcut : Cut IsFrame s fs rest)
    (hcalls : c.calls <+: fs.map callOf) : Received dispatch (s ++ t) c := by
  obtain ⟨gs, rest', hcut'⟩ := exists_cut (rest ++ t)
  refine ⟨fs ++ gs, rest', hcut.append hcut', .inr ⟨hs, hcalls.trans ?_⟩⟩
  rw [map_append]
  exact prefix_append _ _

/-- One arrival. -/
theorem Received.arrive (h : Received dispatch s c) (hrun : c.running = true) (t : List UInt8) :
    ∃ c', (c.arrive t).requestCb dispatch = some c' ∧ Received dispatch (s ++ t) c' := by
  obtain ⟨fs, rest, hcut, rfl | ⟨hstop, hcalls⟩⟩ := h
  · obtain ⟨c', gs, rest', hloop, hcut', hprog⟩ :=
      requestLoop_progress dispatch ((rest ++ t).length + 1) fs (rest ++ t) (by omega)
    exact ⟨c', hloop, fs ++ gs, rest', hcut.append hcut', hprog⟩
  · have hnone : c.inbuf = none := hstop.gone.resolve_right (by simp [hrun])
    have harrive : c.arrive t = c := by
      cases c
      simp_all [ConnectionLibevent.arrive]
    refine ⟨c, ?_, hstop.received t hcut hcalls⟩
    rw [harrive]
    simp [requestCb, requestLoop, receiveData, hnone]

theorem Received.serve (h : Received dispatch s c) (chunks : List (List UInt8)) :
    ∃ c', c.serve (requestCb dispatch) chunks = some c' ∧
      Received dispatch (s ++ chunks.flatten) c' := by
  induction chunks generalizing s c with
  | nil => exact ⟨c, rfl, by simpa using h⟩
  | cons t chunks ih =>
    by_cases hrun : c.running = true
    · obtain ⟨c₁, hcb, h₁⟩ := h.arrive hrun t
      obtain ⟨c', hserve, h'⟩ := ih h₁
      exact ⟨c', by simp [ConnectionLibevent.serve, hrun, hcb, hserve], by simpa using h'⟩
    · obtain ⟨fs, rest, hcut, rfl | ⟨hstop, hcalls⟩⟩ := h
      · simp at hrun
      · exact ⟨c, by simp [ConnectionLibevent.serve, hrun], hstop.received _ hcut hcalls⟩

end ConnectionLibevent

/-- However a stream arrives, every run of `RequestCb` returns, `DecodeAndDispatch` is called with
the frames of the stream in order, and what is left stays in the buffer; a call that closes the
connection or does not return is the last one. -/
theorem Side.serve_frames (side : Side) (dispatch : List Call → Dispatched)
    (chunks : List (List UInt8)) :
    ∃ c fs rest, ConnectionLibevent.serve (side.requestCb dispatch) {} chunks = some c ∧
      Cut IsFrame chunks.flatten fs rest ∧
      (∀ fs' rest', Cut IsFrame chunks.flatten fs' rest' → fs' = fs ∧ rest' = rest) ∧
      c.calls <+: fs.map callOf ∧
      ((c.calls = fs.map callOf ∧ c.inbuf = some rest) ∨
        (c.calls ≠ [] ∧ dispatch c.calls ≠ .returns)) := by
  have hside : side.requestCb dispatch = ConnectionLibevent.requestCb dispatch := by
    cases side <;> rfl
  have hempty : ConnectionLibevent.Received dispatch [] {} :=
    ⟨[], [], .nil fun f hf h => by simp [isFrame_iff, prefix_nil.mp h] at hf, .inl rfl⟩
  obtain ⟨c, hserve, fs, rest, hcut, hprog⟩ := hempty.serve chunks
  rw [nil_append] at hcut
  refine ⟨c, fs, rest, hside ▸ hserve, hcut,
    fun fs' rest' h => Cut.unique isPrefixFree_isFrame h hcut, ?_⟩
  obtain rfl | ⟨hstop, hcalls⟩ := hprog
  · exact ⟨prefix_rfl, .inl ⟨rfl, rfl⟩⟩
  · exact ⟨hcalls, .inr ⟨hstop.called, hstop.last⟩⟩

end Morphling.Wire
