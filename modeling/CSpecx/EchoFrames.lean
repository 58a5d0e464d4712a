import CSpecx.EchoBounds

/-!
# Frames

A request is its length in four bytes and its bytes; the reply carries the
prefix, the request and the suffix. A stream of requests can be read back in
one way only.
-/

namespace EchoServer

open CExec Errors HeapBuffers Polling

def frame (m : List UInt8) : List UInt8 := setPrefix m.length ++ m

def frames (msgs : List (List UInt8)) : List UInt8 := (msgs.map frame).flatten

/-- What the server answers to one request. -/
def answer (ctx : EchoContext) (m : List UInt8) : List UInt8 := frame (ctx.pre ++ m ++ ctx.suf)

def answers (ctx : EchoContext) (msgs : List (List UInt8)) : List UInt8 :=
  (msgs.map (answer ctx)).flatten

/-- A request that is not empty and whose reply has a length below `2 ^ 32`. -/
def Small (ctx : EchoContext) (m : List UInt8) : Prop :=
  m ≠ [] ∧ ctx.pre.length + m.length + ctx.suf.length + 4 < 2 ^ 32

/-- The bytes are the start of a stream of requests. -/
def Requests (ctx : EchoContext) (bytes : List UInt8) : Prop :=
  ∃ msgs, (∀ m ∈ msgs, Small ctx m) ∧ bytes <+: frames msgs

section Frames

variable {ctx : EchoContext} {m m' rest bytes : List UInt8}
  {msgs msgs' : List (List UInt8)} {n : Nat}

@[simp] theorem frames_nil : frames [] = [] := rfl

@[simp] theorem frames_cons : frames (m :: msgs) = frame m ++ frames msgs := rfl

theorem frames_append : frames (msgs ++ msgs') = frames msgs ++ frames msgs' := by
  simp [frames]

theorem answers_append : answers ctx (msgs ++ msgs') = answers ctx msgs ++ answers ctx msgs' := by
  simp [answers]

theorem length_frame : (frame m).length = 4 + m.length := by
  rw [frame, List.length_append, length_setPrefix]

theorem decode_setPrefix (hn : n < 2 ^ 32) (xs : List UInt8) :
    decodePrefix (setPrefix n ++ xs) = n := by
  show (UInt8.ofNat (n / 2 ^ 24)).toNat * 2 ^ 24 + (UInt8.ofNat (n / 2 ^ 16)).toNat * 2 ^ 16 +
    (UInt8.ofNat (n / 2 ^ 8)).toNat * 2 ^ 8 + (UInt8.ofNat n).toNat = n
  simp only [UInt8.toNat_ofNat']
  omega

/-- Only the first four bytes are decoded. -/
theorem decode_take (xs : List UInt8) : decodePrefix (xs.take 4) = decodePrefix xs := by
  rcases xs with _ | ⟨b₀, _ | ⟨b₁, _ | ⟨b₂, _ | ⟨b₃, xs⟩⟩⟩⟩ <;> rfl

theorem decode_frame (hm : m.length < 2 ^ 32) (xs : List UInt8) :
    decodePrefix (frame m ++ xs) = m.length := by
  rw [frame, List.append_assoc]
  exact decode_setPrefix hm _

theorem Small.length_lt (small : Small ctx m) : m.length < 2 ^ 32 := by
  have := small.2
  omega

/-- Two frames at the start of the same bytes are equal. -/
theorem frame_inj {xs ys : List UInt8} (hm : m.length < 2 ^ 32) (hm' : m'.length < 2 ^ 32)
    (h : frame m ++ xs = frame m' ++ ys) : m = m' ∧ xs = ys := by
  have hlen : m.length = m'.length := by
    rw [← decode_frame hm xs, h, decode_frame hm' ys]
  have hframe : (frame m).length = (frame m').length := by
    rw [length_frame, length_frame, hlen]
  obtain ⟨hsame, hrest⟩ := List.append_inj h hframe
  have htail := List.append_inj_right (by simpa [frame] using hsame) (by rfl)
  exact ⟨htail, hrest⟩

/-- What follows the requests read so far begins with a further request. -/
theorem next_request (hsmall : ∀ m ∈ msgs', Small ctx m) (hold : ∀ m ∈ msgs, Small ctx m)
    (hbegin : frames msgs ++ rest <+: frames msgs') (hrest : rest ≠ []) :
    ∃ m, Small ctx m ∧ ∃ more, rest <+: frame m ++ more := by
  induction msgs generalizing msgs' with
  | nil =>
    cases msgs' with
    | nil => exact absurd (List.prefix_nil.mp hbegin) hrest
    | cons m msgs' => exact ⟨m, hsmall m List.mem_cons_self, frames msgs', hbegin⟩
  | cons m msgs ih =>
    cases msgs' with
    | nil =>
      have hnil := List.prefix_nil.mp hbegin
      simp [frame, setPrefix] at hnil
    | cons m' msgs' =>
      obtain ⟨more, hmore⟩ := hbegin
      have heq : frame m ++ (frames msgs ++ rest ++ more) = frame m' ++ frames msgs' := by
        rw [← frames_cons (m := m'), ← hmore]
        simp [List.append_assoc]
      obtain ⟨rfl, htail⟩ := frame_inj (hold m List.mem_cons_self).length_lt
        (hsmall m' List.mem_cons_self).length_lt heq
      exact ih (fun k hk => hsmall k (List.mem_cons_of_mem _ hk))
        (fun k hk => hold k (List.mem_cons_of_mem _ hk)) ⟨more, htail⟩

/-- The prefix of a request that has arrived tells its length, and the whole of
it, once it has that length. -/
theorem next_request_length (hrequests : Requests ctx (frames msgs ++ rest))
    (hold : ∀ m ∈ msgs, Small ctx m) (hfour : 4 ≤ rest.length) :
    ∃ m, Small ctx m ∧ decodePrefix rest = m.length ∧
      (rest.length = 4 + m.length → rest = frame m) := by
  obtain ⟨msgs', hsmall, hbegin⟩ := hrequests
  have hne : rest ≠ [] := by
    rintro rfl
    exact absurd hfour (by decide)
  obtain ⟨m, hm, more, hstart⟩ := next_request hsmall hold hbegin hne
  refine ⟨m, hm, ?_, fun hlen => ?_⟩
  · obtain ⟨tail, htail⟩ := hstart
    have hfirst : rest.take 4 = (frame m ++ more).take 4 := by
      rw [← htail, List.take_append_of_le_length hfour]
    rw [← decode_take rest, hfirst, decode_take, decode_frame hm.length_lt]
  · exact (List.prefix_of_prefix_length_le hstart (List.prefix_append _ _)
      (by rw [length_frame, hlen])).eq_of_length (by rw [length_frame, hlen])

end Frames

end EchoServer
