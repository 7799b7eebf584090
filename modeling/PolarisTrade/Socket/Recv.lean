import PolarisTrade.Decap
import PolarisTrade.IndexPool
import PolarisTrade.Lib.Machine
import PolarisTrade.Lib.Script
import PolarisTrade.VecPool

/-!
# Receive loop of the UDP sockets

`burst` takes datagrams into slabs until the socket is empty, the batch full or the pool empty.
An error met after frames were pushed waits for the next call.  The socket plays a script of
datagrams and errors, and of what peeking finds; when a script is over, the call would block.
-/

namespace Socket

open Transport

/-! ## The loop -/

inductive IpAddr
  | v4 (addr : Ipv4Addr)
  | v6 (segments : List UInt8)
  deriving DecidableEq

/-- Address and port. -/
abbrev SocketAddr := IpAddr × ℕ

def noPeer : SocketAddr := (.v4 ⟨0, 0, 0, 0⟩, 0)

/-- `io::Error` -/
structure IoError where
  kind : IoErrorKind
  rawOsError : Option ℤ
  deriving DecidableEq

def IoError.wouldBlock : IoError := ⟨.wouldBlock, none⟩

/-- The `TransportError`s of the loop. -/
inductive BurstError
  | io (stage : String) (error : IoError)
  | poolExhausted (inUse capacity : ℕ)
  deriving DecidableEq

/-- One received datagram in its slab. -/
structure UdpFrame where
  slab : VecSlab
  peer : SocketAddr

instance : AsRef UdpFrame where
  asRef frame := AsRef.asRef frame.slab

section Burst

variable {S : Type}
  (recv : S → List UInt8 → Except IoError (ℕ × Bool × Option SocketAddr) × S × List UInt8)
  (peek : S → Except IoError Unit × S)

/-- Pool empty, nothing pushed: tell an idle socket from a starved one. -/
def exhausted (pool : VecPool) (s : S) : Except BurstError ℕ × S :=
  match peek s with
  | (.ok (), s) => (.error (.poolExhausted pool.stats.inUse pool.stats.capacity), s)
  | (.error e, s) =>
      if e.kind = .wouldBlock then (.ok 0, s) else (.error (.io "peek" e), s)

/-- The loop of `burst`, with at most `fuel` turns.  A slab that is not pushed is dropped at the
end of its turn. -/
def burstLoop : ℕ → VecPool → FrameBatch UdpFrame → ℕ → S →
    Option (Except BurstError ℕ × VecPool × FrameBatch UdpFrame × Option BurstError × S)
  | 0, _, _, _, _ => none
  | fuel + 1, pool, out, pushed, s =>
      if 0 < out.spare then
        match pool.acquire with
        | none =>
            if pushed = 0 then
              let (result, s) := exhausted peek pool s
              some (result, pool, out, none, s)
            else some (.ok pushed, pool, out, none, s)
        | some (slab, pool) =>
            match recv s slab.buf with
            | (.ok (_, true, _), s, buf) =>
                burstLoop fuel (pool.dropSlab { slab with buf := buf }) out pushed s
            | (.ok (len, false, sender), s, buf) =>
                burstLoop fuel pool
                  (out.push ⟨VecSlab.setLen { slab with buf := buf } len, sender.getD noPeer⟩)
                  (pushed + 1) s
            | (.error e, s, buf) =>
                let pool := pool.dropSlab { slab with buf := buf }
                if e.kind = .wouldBlock then some (.ok pushed, pool, out, none, s)
                else if pushed = 0 then some (.error (.io "recv_from" e), pool, out, none, s)
                else some (.ok pushed, pool, out, some (.io "recv_from" e), s)
      else some (.ok pushed, pool, out, none, s)

/-- The last component but one of the result is what is left in `deferred`. -/
def burst (fuel : ℕ) (pool : VecPool) (out : FrameBatch UdpFrame) (deferred : Option BurstError)
    (s : S) :
    Option (Except BurstError ℕ × VecPool × FrameBatch UdpFrame × Option BurstError × S) :=
  match deferred with
  | some error => some (.error error, pool, out, none, s)
  | none => burstLoop recv peek fuel pool out 0 s

end Burst

/-! ## The socket -/

/-- Result of one receive: a whole datagram with its sender, or an error. -/
abbrev Received := Except IoError (List UInt8 × Option SocketAddr)

structure UdpScript where
  recvs : Script Received
  peeks : Script (Except IoError Unit)

namespace UdpScript

/-- `recvfrom` with `MSG_TRUNC`: the kernel writes what fits, the length returned is clamped. -/
def datagram (s : UdpScript) (buf : List UInt8) :
    Except IoError (ℕ × Bool × Option SocketAddr) × UdpScript × List UInt8 :=
  let (answer, recvs) := s.recvs.next (.error .wouldBlock)
  match answer with
  | .ok (bytes, sender) =>
      (.ok (min bytes.length buf.length, decide (buf.length < bytes.length), sender),
        { s with recvs := recvs }, bytes.take buf.length ++ buf.drop bytes.length)
  | .error e => (.error e, { s with recvs := recvs }, buf)

def peekReady (s : UdpScript) : Except IoError Unit × UdpScript :=
  let (answer, peeks) := s.peeks.next (.error .wouldBlock)
  (answer, { s with peeks := peeks })

end UdpScript

/-! ## One receive -/

/-- The socket after one more receive. -/
def UdpScript.received (s : UdpScript) : Received := (s.recvs.next (.error .wouldBlock)).1

def UdpScript.advance (s : UdpScript) : UdpScript :=
  { s with recvs := (s.recvs.next (.error .wouldBlock)).2 }

theorem UdpScript.given_advance (s : UdpScript) :
    s.advance.recvs.given = s.recvs.given ++ [s.received] := s.recvs.given_next _

theorem UdpScript.length_coming_advance {s : UdpScript} {d : List UInt8 × Option SocketAddr}
    (h : s.received = .ok d) : s.advance.recvs.coming.length < s.recvs.coming.length := by
  refine (Script.next_mem ?_).2
  change s.received ≠ _
  rw [h]
  rintro ⟨⟩

/-- A receive into a slab: the datagram was cut, or it is there as a whole, or it failed. -/
theorem UdpScript.datagram_cases (s : UdpScript) (buf : List UInt8) :
    (∃ bytes sender len buf', s.received = .ok (bytes, sender) ∧ buf.length < bytes.length ∧
      s.datagram buf = (.ok (len, true, sender), s.advance, buf') ∧
      buf'.length = buf.length) ∨
    (∃ bytes sender, s.received = .ok (bytes, sender) ∧ bytes.length ≤ buf.length ∧
      s.datagram buf =
        (.ok (bytes.length, false, sender), s.advance, bytes ++ buf.drop bytes.length)) ∨
    ∃ e, s.received = .error e ∧ s.datagram buf = (.error e, s.advance, buf) := by
  cases hreceived : s.received with
  | error e =>
      refine Or.inr (Or.inr ⟨e, rfl, ?_⟩)
      unfold datagram
      rw [show s.recvs.next (.error .wouldBlock) = (s.received, s.advance.recvs) from rfl,
        hreceived]
      rfl
  | ok d =>
      obtain ⟨bytes, sender⟩ := d
      have hdatagram : s.datagram buf =
          (.ok (min bytes.length buf.length, decide (buf.length < bytes.length), sender),
            s.advance, bytes.take buf.length ++ buf.drop bytes.length) := by
        unfold datagram
        rw [show s.recvs.next (.error .wouldBlock) = (s.received, s.advance.recvs) from rfl,
          hreceived]
        rfl
      by_cases hcut : buf.length < bytes.length
      · rw [decide_eq_true hcut] at hdatagram
        refine Or.inl ⟨bytes, sender, _, _, rfl, hcut, hdatagram, ?_⟩
        rw [List.length_append, List.length_take, List.length_drop]
        omega
      · refine Or.inr (Or.inl ⟨bytes, sender, rfl, Nat.le_of_not_lt hcut, ?_⟩)
        rw [hdatagram, decide_eq_false hcut, min_eq_left (Nat.le_of_not_lt hcut),
          List.take_of_length_le (Nat.le_of_not_lt hcut)]

/-- What a receive into a slab of `size` bytes delivers. -/
def whole (size : ℕ) : Received → Option (List UInt8 × SocketAddr)
  | .ok (bytes, sender) => if bytes.length ≤ size then some (bytes, sender.getD noPeer) else none
  | .error _ => none

/-- The error the caller is owed for a receive. -/
def failure : Received → Option BurstError
  | .ok _ => none
  | .error e => if e.kind = .wouldBlock then none else some (.io "recv_from" e)

def UdpFrame.content (frame : UdpFrame) : List UInt8 × SocketAddr :=
  (AsRef.asRef frame, frame.peer)

/-- The bytes of a frame are those written into its slab. -/
theorem content_setLen (bytes rest : List UInt8) (len : ℕ) (peer : SocketAddr) :
    (⟨VecSlab.setLen ⟨bytes ++ rest, len⟩ bytes.length, peer⟩ : UdpFrame).content =
      (bytes, peer) := by
  have hlen : min bytes.length (bytes ++ rest).length = bytes.length := by
    rw [List.length_append]
    omega
  change (List.take (min bytes.length _) (bytes ++ _), peer) = _
  rw [hlen, List.take_left]

/-! ## One call -/

/-- The errors of `recv` among what calls return. -/
def recvErrors : Except BurstError ℕ → List BurstError
  | .error (.io stage e) => if stage = "recv_from" then [.io stage e] else []
  | _ => []

theorem recvErrors_peek (e : IoError) : recvErrors (.error (.io "peek" e)) = [] := by
  rw [recvErrors, if_neg (by decide)]

theorem recvErrors_of_failure {given : List Received} {e : BurstError}
    (h : e ∈ given.filterMap failure) : recvErrors (.error e) = [e] := by
  obtain ⟨a, -, ha⟩ := List.mem_filterMap.mp h
  cases a with
  | ok d => cases ha
  | error io =>
      rw [failure] at ha
      split at ha
      · cases ha
      · cases ha
        rw [recvErrors, if_pos rfl]

/-- What a call does with `live` slabs out and `pushed` frames in the batch: the receives `given`
in it, the frames `fresh` it pushes and the error it leaves in `deferred`. -/
structure Returns (size live pushed : ℕ) (s s' : UdpScript) (pool pool' : VecPool)
    (given : List Received) (result : Except BurstError ℕ) (fresh : List UdpFrame)
    (deferred : Option BurstError) : Prop where
  holds : pool'.Holds size (live + fresh.length)
  capacity : pool'.capacity = pool.capacity
  sizes : ∀ f ∈ fresh, f.slab.buf.length = size
  given_eq : s'.recvs.given = s.recvs.given ++ given
  peeks : ∃ peeked, s'.peeks.given = s.peeks.given ++ peeked
  content : fresh.map UdpFrame.content = given.filterMap (whole size)
  errors : recvErrors result ++ deferred.toList = given.filterMap failure
  stops : given.dropLast.filterMap failure = []
  counted : ∀ n, result = .ok n → n = pushed + fresh.length
  failed : ∀ e, result = .error e → pushed = 0 ∧ fresh = [] ∧ deferred = none
  starved : ∀ inUse capacity, result = .error (.poolExhausted inUse capacity) →
    live = pool.capacity ∧ inUse = live ∧ capacity = pool.capacity ∧
      s'.peeks.given = s.peeks.given ++ [.ok ()]

section Step

variable {size live pushed : ℕ} {s s' : UdpScript} {pool pool₁ pool' : VecPool}
  {given : List Received} {result : Except BurstError ℕ} {fresh : List UdpFrame}
  {deferred : Option BurstError}

theorem dropLast_cons_failure {a : Received} (ha : failure a = none)
    (h : given.dropLast.filterMap failure = []) :
    (a :: given).dropLast.filterMap failure = [] := by
  cases given with
  | nil => rfl
  | cons b given =>
      rw [List.dropLast_cons_cons, List.filterMap_cons_none ha]
      exact h

/-- A turn that received a datagram comes before the rest of the call. -/
theorem Returns.cons {d : List UInt8 × Option SocketAddr} {n : ℕ} (frames : List UdpFrame)
    (h : Returns size (live + frames.length) n s.advance s' pool₁ pool' given result fresh deferred)
    (hreceived : s.received = .ok d) (hcapacity : pool₁.capacity = pool.capacity)
    (hn : n = pushed + frames.length) (hsizes : ∀ f ∈ frames, f.slab.buf.length = size)
    (hcontent : frames.map UdpFrame.content = (whole size (.ok d)).toList) :
    Returns size live pushed s s' pool pool' (.ok d :: given) result (frames ++ fresh)
      deferred where
  holds := by
    rw [List.length_append, ← Nat.add_assoc]
    exact h.holds
  capacity := h.capacity.trans hcapacity
  sizes := by
    intro f hf
    exact (List.mem_append.mp hf).elim (hsizes f) (h.sizes f)
  given_eq := by
    rw [h.given_eq, s.given_advance, hreceived, List.append_assoc, List.singleton_append]
  peeks := h.peeks
  content := by
    rw [List.map_append, hcontent, h.content]
    cases hwhole : whole size (.ok d) with
    | none => rw [List.filterMap_cons_none hwhole]; rfl
    | some content => rw [List.filterMap_cons_some hwhole]; rfl
  errors := by
    rw [h.errors, List.filterMap_cons_none rfl]
  stops := dropLast_cons_failure rfl h.stops
  counted := by
    intro m hm
    rw [h.counted m hm, hn, List.length_append, Nat.add_assoc]
  failed := by
    intro e he
    obtain ⟨hzero, hfresh, hdeferred⟩ := h.failed e he
    have hframes : frames = [] := List.length_eq_zero_iff.mp (by omega)
    exact ⟨by omega, by rw [hframes, hfresh, List.append_nil], hdeferred⟩
  starved := by
    intro inUse capacity hresult
    obtain ⟨hzero, -, -⟩ := h.failed _ hresult
    have hstarved := h.starved inUse capacity hresult
    rw [show frames.length = 0 by omega, Nat.add_zero, hcapacity] at hstarved
    exact hstarved

/-- A call that ends with nothing more received. -/
theorem Returns.nil (hpool : pool.Holds size live)
    (hrecvs : s'.recvs = s.recvs) (hpeeks : ∃ peeked, s'.peeks.given = s.peeks.given ++ peeked)
    (hresult : recvErrors result = [])
    (hcounted : ∀ n, result = .ok n → n = pushed) (hfailed : ∀ e, result = .error e → pushed = 0)
    (hstarved : ∀ inUse capacity, result = .error (.poolExhausted inUse capacity) →
      live = pool.capacity ∧ inUse = live ∧ capacity = pool.capacity ∧
        s'.peeks.given = s.peeks.given ++ [.ok ()]) :
    Returns size live pushed s s' pool pool [] result [] none where
  holds := hpool
  capacity := rfl
  sizes := fun _ hf ↦ (List.not_mem_nil hf).elim
  given_eq := by rw [hrecvs, List.append_nil]
  peeks := hpeeks
  content := rfl
  errors := by rw [hresult]; rfl
  stops := rfl
  counted := hcounted
  failed := fun e he ↦ ⟨hfailed e he, rfl, rfl⟩
  starved := hstarved

/-- A call that ends with a failed receive, whose slab goes back. -/
theorem Returns.error {e : IoError} (hpool : pool'.Holds size live)
    (hcapacity : pool'.capacity = pool.capacity) (hreceived : s.received = .error e)
    (herrors : recvErrors result ++ deferred.toList = (failure (.error e)).toList)
    (hcounted : ∀ n, result = .ok n → n = pushed)
    (hfailed : ∀ e', result = .error e' → e' = .io "recv_from" e ∧ pushed = 0 ∧ deferred = none) :
    Returns size live pushed s s.advance pool pool' [.error e] result [] deferred where
  holds := hpool
  capacity := hcapacity
  sizes := fun _ hf ↦ (List.not_mem_nil hf).elim
  given_eq := by rw [s.given_advance, hreceived]
  peeks := ⟨[], (List.append_nil _).symm⟩
  content := rfl
  errors := by
    rw [herrors]
    cases hfailure : failure (.error e) <;> simp [hfailure]
  stops := rfl
  counted := hcounted
  failed := fun e' he' ↦ ⟨(hfailed e' he').2.1, rfl, (hfailed e' he').2.2⟩
  starved := by
    intro inUse capacity hresult
    cases (hfailed _ hresult).1

end Step

theorem exhausted_returns {size live : ℕ} {pool : VecPool} (hpool : pool.Holds size live)
    (hlive : live = pool.capacity) (s : UdpScript) :
    Returns size live 0 s (exhausted UdpScript.peekReady pool s).2 pool pool []
      (exhausted UdpScript.peekReady pool s).1 [] none := by
  have hgiven := s.peeks.given_next (.error .wouldBlock)
  unfold exhausted UdpScript.peekReady
  generalize s.peeks.next (.error .wouldBlock) = answered at hgiven ⊢
  obtain ⟨u | e, peeks⟩ := answered
  · dsimp only
    split
    · refine .nil hpool rfl ⟨_, hgiven⟩ rfl ?_ (by rintro _ ⟨⟩) (by rintro _ _ ⟨⟩)
      rintro _ ⟨⟩
      rfl
    · exact .nil hpool rfl ⟨_, hgiven⟩ (recvErrors_peek u) (by rintro _ ⟨⟩) (fun _ _ ↦ rfl)
        (by rintro _ _ ⟨⟩)
  · refine .nil hpool rfl ⟨_, hgiven⟩ rfl (by rintro _ ⟨⟩) (fun _ _ ↦ rfl) ?_
    rintro _ _ ⟨⟩
    rw [hpool.stats_eq]
    exact ⟨hlive, rfl, rfl, hgiven⟩

/-- The three ways a failed receive ends the loop. -/
theorem error_returns {size live : ℕ} {pool pool' : VecPool} {s : UdpScript} {e : IoError}
    (hpool : pool'.Holds size live) (hcapacity : pool'.capacity = pool.capacity)
    (hreceived : s.received = .error e) (pushed : ℕ) (out : FrameBatch UdpFrame) :
    ∃ result deferred,
      (if e.kind = .wouldBlock then some (.ok pushed, pool', out, none, s.advance)
        else if pushed = 0 then some (.error (.io "recv_from" e), pool', out, none, s.advance)
        else some (.ok pushed, pool', out, some (.io "recv_from" e), s.advance)) =
        some (result, pool', out, deferred, s.advance) ∧
      Returns size live pushed s s.advance pool pool' [.error e] result [] deferred := by
  have hcounted : ∀ n, (.ok pushed : Except BurstError ℕ) = .ok n → n = pushed := by
    rintro _ ⟨⟩
    rfl
  by_cases hblock : e.kind = .wouldBlock
  · rw [if_pos hblock]
    refine ⟨_, _, rfl, .error hpool hcapacity hreceived ?_ hcounted (by rintro _ ⟨⟩)⟩
    rw [failure, if_pos hblock]
    rfl
  · rw [if_neg hblock]
    by_cases hzero : pushed = 0
    · rw [if_pos hzero]
      refine ⟨_, _, rfl, .error hpool hcapacity hreceived ?_ (by rintro _ ⟨⟩) ?_⟩
      · rw [failure, if_neg hblock, recvErrors, if_pos rfl]
        rfl
      · rintro _ ⟨⟩
        exact ⟨rfl, hzero, rfl⟩
    · rw [if_neg hzero]
      refine ⟨_, _, rfl, .error hpool hcapacity hreceived ?_ hcounted (by rintro _ ⟨⟩)⟩
      rw [failure, if_neg hblock]
      rfl

/-- With more turns than the script has receives, the loop ends. -/
theorem burstLoop_returns {size : ℕ} (fuel : ℕ) :
    ∀ {live pushed : ℕ} {pool : VecPool} {out : FrameBatch UdpFrame} {s : UdpScript},
      pool.Holds size live → s.recvs.coming.length < fuel →
      ∃ result pool' fresh deferred s' given,
        burstLoop UdpScript.datagram UdpScript.peekReady fuel pool out pushed s =
          some (result, pool', { out with frames := out.frames ++ fresh }, deferred, s') ∧
        Returns size live pushed s s' pool pool' given result fresh deferred := by
  induction fuel with
  | zero => exact fun _ hfuel ↦ (Nat.not_lt_zero _ hfuel).elim
  | succ fuel ih =>
      intro live pushed pool out s hpool hfuel
      have hend : Returns size live pushed s s pool pool [] (.ok pushed) [] none := by
        refine .nil hpool rfl ⟨[], (List.append_nil _).symm⟩ rfl ?_ (by rintro _ ⟨⟩)
          (by rintro _ _ ⟨⟩)
        rintro _ ⟨⟩
        rfl
      unfold burstLoop
      by_cases hroom : 0 < out.spare
      · rw [if_pos hroom]
        cases hacquire : pool.acquire with
        | none =>
            dsimp only
            split
            · next hzero =>
                subst hzero
                refine ⟨_, _, [], _, _, [], ?_,
                  exhausted_returns hpool (hpool.acquire_none hacquire) s⟩
                rw [List.append_nil]
            · refine ⟨_, _, [], _, _, [], ?_, hend⟩
              rw [List.append_nil]
        | some q =>
            obtain ⟨slab, pool₁⟩ := q
            obtain ⟨hpool₁, hcapacity, hsize⟩ := hpool.acquire hacquire
            dsimp only
            obtain ⟨bytes, sender, len, buf', hreceived, hcut, hrecv, hbuf⟩ |
              ⟨bytes, sender, hreceived, hfits, hrecv⟩ | ⟨e, hreceived, hrecv⟩ :=
              s.datagram_cases slab.buf
            · -- a cut datagram: the slab goes back, the loop goes on
              have hless := UdpScript.length_coming_advance hreceived
              have hdropped : (pool₁.dropSlab { slab with buf := buf' }).Holds size live :=
                hpool₁.dropSlab (hbuf.trans hsize)
              obtain ⟨result, pool', fresh, deferred, s', given, hloop, hreturns⟩ :=
                @ih live pushed _ out s.advance hdropped (by omega)
              rw [hrecv]
              refine ⟨result, pool', fresh, deferred, s', _, hloop,
                hreturns.cons [] hreceived hcapacity rfl
                  (fun _ hf ↦ (List.not_mem_nil hf).elim) ?_⟩
              rw [whole, if_neg (by omega)]
              rfl
            · have hless := UdpScript.length_coming_advance hreceived
              rw [hrecv]
              dsimp only
              set frame : UdpFrame :=
                ⟨VecSlab.setLen { slab with buf := bytes ++ slab.buf.drop bytes.length }
                  bytes.length, sender.getD noPeer⟩
              obtain ⟨result, pool', fresh, deferred, s', given, hloop, hreturns⟩ :=
                @ih (live + 1) (pushed + 1) pool₁ (out.push frame) s.advance hpool₁ (by omega)
              refine ⟨result, pool', [frame] ++ fresh, deferred, s', _, ?_,
                hreturns.cons [frame] hreceived hcapacity rfl ?_ ?_⟩
              · rw [hloop]
                simp only [FrameBatch.push, List.append_assoc]
              · intro f hf
                obtain rfl := List.mem_singleton.mp hf
                change (bytes ++ slab.buf.drop bytes.length).length = size
                rw [List.length_append, List.length_drop]
                omega
              · rw [whole, if_pos (by omega), List.map_singleton]
                exact congrArg (fun content ↦ [content]) (content_setLen _ _ _ _)
            · obtain ⟨result, deferred, hends, hreturns⟩ :=
                error_returns (hpool₁.dropSlab hsize) hcapacity hreceived pushed out
              rw [hrecv]
              refine ⟨result, _, [], deferred, s.advance, _, ?_, hreturns⟩
              rw [List.append_nil]
              exact hends
      · rw [if_neg hroom]
        refine ⟨_, _, [], _, _, [], ?_, hend⟩
        rw [List.append_nil]

/-! ## Whole runs -/

/-- One call: the receives and peeks made in it, what it returned and the frames it pushed. -/
structure BurstCall where
  given : List Received
  peeked : List (Except IoError Unit)
  result : Except BurstError ℕ
  fresh : List UdpFrame

/-- A socket with its pool, the frames not dropped yet and the calls made so far. -/
structure Station where
  pool : VecPool
  deferred : Option BurstError
  sock : UdpScript
  live : List UdpFrame
  calls : List BurstCall

/-- A call with the caller's batch, or the caller drops a frame. -/
inductive Event
  | burst (out : FrameBatch UdpFrame)
  | dropFrame (k : ℕ)

namespace Station

def start (slabCount slabSize : ℕ) (recvs : List Received) (peeks : List (Except IoError Unit)) :
    Station :=
  ⟨.new slabCount slabSize, none, ⟨⟨recvs, []⟩, ⟨peeks, []⟩⟩, [], []⟩

def next (st : Station) : Event → Option Station
  | .burst out =>
      (burst UdpScript.datagram UdpScript.peekReady (st.sock.recvs.coming.length + 1) st.pool out
        st.deferred st.sock).map fun q ↦
        let fresh := q.2.2.1.frames.drop out.frames.length
        let sock := q.2.2.2.2
        ⟨q.2.1, q.2.2.2.1, sock, st.live ++ fresh,
          st.calls ++ [⟨sock.recvs.given.drop st.sock.recvs.given.length,
            sock.peeks.given.drop st.sock.peeks.given.length, q.1, fresh⟩]⟩
  | .dropFrame k =>
      st.live[k]?.map fun frame ↦
        { st with pool := st.pool.dropSlab frame.slab, live := st.live.eraseIdx k }

def machine : Machine Station Event := .ofNext next

/-- Batches have room. -/
def HasRoom (_ : Station) : Event → Prop
  | .burst out => 0 < out.spare
  | .dropFrame _ => True

instance (st : Station) : ∀ e, Decidable (st.HasRoom e)
  | .burst _ => inferInstanceAs (Decidable (_ < _))
  | .dropFrame _ => .isTrue trivial

/-- Frames pushed over all calls. -/
def frames (st : Station) : List UdpFrame := st.calls.flatMap BurstCall.fresh

/-- Errors of `recv` returned over all calls. -/
def returned (st : Station) : List BurstError :=
  st.calls.flatMap fun call ↦ recvErrors call.result

/-- What one call from `st` to `st'` returns. -/
structure Answers (st st' : Station) (call : BurstCall) : Prop where
  given_eq : st'.sock.recvs.given = st.sock.recvs.given ++ call.given
  peeked_eq : st'.sock.peeks.given = st.sock.peeks.given ++ call.peeked
  counted : ∀ n, call.result = .ok n → n = call.fresh.length
  failed : ∀ e, call.result = .error e → call.fresh = [] ∧ st'.deferred = none
  waiting : ∀ e, st.deferred = some e → call.result = .error e ∧ call.given = []
  stops : call.given.dropLast.filterMap failure = []
  starved : ∀ inUse capacity, call.result = .error (.poolExhausted inUse capacity) →
    st.live.length = st.pool.capacity ∧ inUse = st.pool.capacity ∧ capacity = st.pool.capacity ∧
      call.fresh = [] ∧ call.peeked = [.ok ()]

/-- What holds after every call and every drop. -/
structure Kept (slabCount size : ℕ) (st : Station) : Prop where
  holds : st.pool.Holds size st.live.length
  capacity : st.pool.capacity = slabCount
  sizes : ∀ f ∈ st.live, f.slab.buf.length = size
  content : st.frames.map UdpFrame.content = st.sock.recvs.given.filterMap (whole size)
  errors : st.returned ++ st.deferred.toList = st.sock.recvs.given.filterMap failure
  recv : ∀ e ∈ st.deferred, recvErrors (.error e) = [e]

theorem Kept.start (slabCount size : ℕ) (recvs : List Received)
    (peeks : List (Except IoError Unit)) :
    (start slabCount size recvs peeks).Kept slabCount size where
  holds := VecPool.holds_new slabCount size
  capacity := rfl
  sizes := fun _ hf ↦ (List.not_mem_nil hf).elim
  content := rfl
  errors := rfl
  recv := by rintro _ ⟨⟩

variable {slabCount size : ℕ} {st st' : Station}

theorem Kept.dropFrame (h : st.Kept slabCount size) {k : ℕ}
    (hstep : st.next (.dropFrame k) = some st') : st'.Kept slabCount size := by
  obtain ⟨frame, hframe, rfl⟩ := Option.map_eq_some_iff.mp hstep
  obtain ⟨hk, hget⟩ := List.getElem?_eq_some_iff.mp hframe
  refine ⟨?_, h.capacity, fun f hf ↦ h.sizes f (List.mem_of_mem_eraseIdx hf), h.content,
    h.errors, h.recv⟩
  have hlength : (st.live.eraseIdx k).length + 1 = st.live.length := by
    rw [List.length_eraseIdx_of_lt hk]
    omega
  have hholds := h.holds
  rw [← hlength] at hholds
  exact hholds.dropSlab (h.sizes frame (List.mem_of_getElem? hframe))

/-- A waiting error is returned before any receive is made. -/
theorem Kept.waiting (h : st.Kept slabCount size) {e : BurstError} (he : st.deferred = some e)
    (out : FrameBatch UdpFrame) :
    ∃ st' call, st.next (.burst out) = some st' ∧ st'.Kept slabCount size ∧
      st'.calls = st.calls ++ [call] ∧ st.Answers st' call := by
  refine ⟨⟨st.pool, none, st.sock, st.live, st.calls ++ [⟨[], [], .error e, []⟩]⟩,
    ⟨[], [], .error e, []⟩, ?_, ?_, rfl, ?_⟩
  · simp only [next, burst, he, Option.map_some, List.drop_length, List.append_nil]
  · have herrors := h.errors
    refine ⟨h.holds, h.capacity, h.sizes, ?_, ?_, by rintro _ ⟨⟩⟩
    · rw [frames, List.flatMap_append, List.flatMap_singleton, List.append_nil]
      exact h.content
    · rw [he, Option.toList_some] at herrors
      rw [returned, List.flatMap_append, List.flatMap_singleton, h.recv e he, Option.toList_none,
        List.append_nil]
      exact herrors
  · refine ⟨(List.append_nil _).symm, (List.append_nil _).symm, by rintro _ ⟨⟩,
      fun _ _ ↦ ⟨rfl, rfl⟩, ?_, rfl, ?_⟩
    · intro e' he'
      cases he.symm.trans he'
      exact ⟨rfl, rfl⟩
    · rintro inUse capacity ⟨⟩
      cases h.recv _ he

/-- With no error waiting the loop runs. -/
theorem Kept.runs (h : st.Kept slabCount size) (hdeferred : st.deferred = none)
    (out : FrameBatch UdpFrame) :
    ∃ st' call, st.next (.burst out) = some st' ∧ st'.Kept slabCount size ∧
      st'.calls = st.calls ++ [call] ∧ st.Answers st' call := by
  obtain ⟨result, pool, fresh, deferred, sock, given, hloop, hreturns⟩ :=
    @burstLoop_returns size _ _ 0 _ out st.sock h.holds (Nat.lt_succ_self _)
  obtain ⟨peeked, hpeeked⟩ := hreturns.peeks
  refine ⟨⟨pool, deferred, sock, st.live ++ fresh,
    st.calls ++ [⟨given, peeked, result, fresh⟩]⟩, ⟨given, peeked, result, fresh⟩, ?_, ?_, rfl, ?_⟩
  · simp only [next, burst, hdeferred, hloop, Option.map_some, List.drop_left,
      hreturns.given_eq, hpeeked]
  · have herrors := h.errors
    rw [hdeferred, Option.toList_none, List.append_nil] at herrors
    refine ⟨?_, hreturns.capacity.trans h.capacity, ?_, ?_, ?_, ?_⟩
    · rw [List.length_append]
      exact hreturns.holds
    · exact fun f hf ↦ (List.mem_append.mp hf).elim (h.sizes f) (hreturns.sizes f)
    · rw [frames, List.flatMap_append, List.flatMap_singleton, List.map_append,
        hreturns.given_eq, List.filterMap_append, hreturns.content]
      exact congrArg (· ++ _) h.content
    · rw [returned, List.flatMap_append, List.flatMap_singleton, List.append_assoc,
        hreturns.given_eq, List.filterMap_append, hreturns.errors]
      exact congrArg (· ++ _) herrors
    · intro e he
      have hmem : e ∈ given.filterMap failure := by
        rw [← hreturns.errors]
        exact List.mem_append_right _ (Option.mem_toList.mpr he)
      exact recvErrors_of_failure hmem
  · refine ⟨hreturns.given_eq, hpeeked, ?_, ?_, ?_, hreturns.stops, ?_⟩
    · intro n hn
      rw [hreturns.counted n hn, Nat.zero_add]
    · exact fun e he ↦ (hreturns.failed e he).2
    · intro e he
      cases hdeferred.symm.trans he
    · intro inUse capacity hresult
      obtain ⟨hlive, hinUse, hcapacity, hpeek⟩ := hreturns.starved inUse capacity hresult
      refine ⟨hlive, hinUse.trans hlive, hcapacity, (hreturns.failed _ hresult).2.1, ?_⟩
      exact List.append_cancel_left (hpeeked.symm.trans hpeek)

theorem Kept.burst (h : st.Kept slabCount size) (out : FrameBatch UdpFrame) :
    ∃ st' call, st.next (.burst out) = some st' ∧ st'.Kept slabCount size ∧
      st'.calls = st.calls ++ [call] ∧ st.Answers st' call := by
  cases hdeferred : st.deferred with
  | none => exact h.runs hdeferred out
  | some e => exact h.waiting hdeferred out

end Station

end Socket
