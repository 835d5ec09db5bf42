import Easycom.Tools

/-!
# Easycom — Endless

When `Session::send` does not return. Its receive loop has no bound: it goes
on while every read delivers a byte and every line is an echo. It is shown
here that nothing else keeps it running (`send_hangs_iff`): a line that is
no echo, a read without a byte, or an error ends it, whatever the session
has been through. A port that delivers only finitely many bytes after a
write is enough for every client to come to its end (`client_ends`).
-/

namespace Easycom

open Rust Stream

variable {T ε ω α : Type} [Transport T ε]

/-! ## Endless reading -/

/-- Reading byte by byte into a buffer that goes round, the transport gives
the bytes. -/
inductive Gives : List UInt8 → T → List UInt8 → Prop where
  | nil (buf : List UInt8) (t : T) : Gives buf t []
  | cons {buf buf' bs : List UInt8} {t t' : T} {n : Nat}
      (h : Transport.read t buf = ((.ok (n + 1), buf'), t')) (rest : Gives buf' t' bs) :
      Gives buf t (buf'.headD 0 :: bs)

/-- Every line of the bytes is the one that was sent. -/
def OnlyEchoes (sent bs : List UInt8) : Prop := ∀ l ∈ (splitLines isTerminator bs).1, l = sent

theorem onlyEchoes_open {sent q : List UInt8} (hq : Open isTerminator q) : OnlyEchoes sent q := by
  intro l hl
  rw [splitLines_open hq] at hl
  cases hl

theorem onlyEchoes_line {sent q bs : List UInt8} {b : UInt8} (hq : Open isTerminator q)
    (hb : isTerminator b = true) :
    OnlyEchoes sent (q ++ b :: bs) ↔ q = sent ∧ OnlyEchoes sent bs := by
  rw [OnlyEchoes, splitLines_line hq hb]
  exact List.forall_mem_cons

/-- What a listener does with a byte. -/
theorem Listener.step_byte {sent buf buf' l q : List UInt8} {t t' : T} {n : Nat}
    (h : Transport.read t buf = ((.ok (n + 1), buf'), t')) :
    Listener.step sent ⟨t, buf, l, q⟩ =
      if isTerminator (buf'.headD 0) then
        if q = sent then .inl ⟨t', buf', [], []⟩
        else .inr ⟨(readResponse l).mapError .parse, t', []⟩
      else
        .inl ⟨t', buf', (Stream.step isTerminator maxFrame l (buf'.headD 0)).2,
          q ++ [buf'.headD 0]⟩ := by
  simp only [step, h]

/-- Without a byte the listener fails. -/
theorem Listener.step_fails {a : Listener T}
    (h : ∀ k, (Transport.read a.transport a.byte).1.1 ≠ .ok (k + 1)) (sent : List UInt8) :
    ∃ heard, a.step sent = .inr heard := by
  rw [step]
  generalize Transport.read a.transport a.byte = out at h
  obtain ⟨⟨n, buf⟩, t⟩ := out
  rcases n with e | _ | k
  · exact ⟨_, rfl⟩
  · exact ⟨_, rfl⟩
  · exact absurd rfl (h k)

theorem gives_cons {buf buf' bs : List UInt8} {t t' : T} {b : UInt8} {n : Nat}
    (h : Transport.read t buf = ((.ok (n + 1), buf'), t')) :
    Gives buf t (b :: bs) ↔ b = buf'.headD 0 ∧ Gives buf' t' bs := by
  constructor
  · intro hgives
    cases hgives with
    | cons hread rest =>
        rw [h] at hread
        cases hread
        exact ⟨rfl, rest⟩
  · intro hgives
    obtain ⟨rfl, rest⟩ := hgives
    exact .cons h rest

/-- Without a byte nothing is given. -/
theorem not_gives_cons {buf bs : List UInt8} {t : T} {b : UInt8}
    (h : ∀ k, (Transport.read t buf).1.1 ≠ .ok (k + 1)) : ¬ Gives buf t (b :: bs) := by
  intro hgives
  cases hgives with
  | cons hread _ => exact absurd (by rw [hread]) (h _)

/-- **A listener is still running after `n` reads** exactly if each of them
has delivered a byte, and no line but echoes has come. -/
theorem iterate_eq_none {sent : List UInt8} (n : Nat) {t : T} {buf l q : List UInt8}
    (hq : Open isTerminator q) :
    iterate (Listener.step sent) n ⟨t, buf, l, q⟩ = none ↔
      ∃ bs, bs.length = n ∧ Gives buf t bs ∧ OnlyEchoes sent (q ++ bs) := by
  induction n generalizing t buf l q with
  | zero =>
      constructor
      · intro _
        exact ⟨[], rfl, .nil buf t, by rw [List.append_nil]; exact onlyEchoes_open hq⟩
      · intro _
        rfl
  | succ n ih =>
      rw [iterate]
      by_cases hbyte : ∀ k, (Transport.read t buf).1.1 ≠ .ok (k + 1)
      · obtain ⟨heard, hheard⟩ := Listener.step_fails (a := ⟨t, buf, l, q⟩) hbyte sent
        rw [hheard]
        constructor
        · intro h
          cases h
        · intro h
          obtain ⟨bs, hlen, hgives, -⟩ := h
          obtain ⟨b, bs, rfl⟩ := List.exists_cons_of_length_eq_add_one hlen
          exact absurd hgives (not_gives_cons hbyte)
      · obtain ⟨k, hk⟩ := not_forall_not.mp hbyte
        obtain ⟨buf', t', hread⟩ :
            ∃ buf' t', Transport.read t buf = ((.ok (k + 1), buf'), t') :=
          ⟨_, _, Prod.ext (Prod.ext hk rfl) rfl⟩
        -- a byte, and then `n` more
        have hnext : (∃ bs, bs.length = n + 1 ∧ Gives buf t bs ∧ OnlyEchoes sent (q ++ bs)) ↔
            ∃ bs, bs.length = n ∧ Gives buf' t' bs ∧
              OnlyEchoes sent (q ++ buf'.headD 0 :: bs) := by
          constructor
          · intro h
            obtain ⟨bs, hlen, hgives, hechoes⟩ := h
            obtain ⟨b, bs, rfl⟩ := List.exists_cons_of_length_eq_add_one hlen
            obtain ⟨rfl, hrest⟩ := (gives_cons hread).mp hgives
            exact ⟨bs, Nat.succ.inj hlen, hrest, hechoes⟩
          · intro h
            obtain ⟨bs, hlen, hrest, hechoes⟩ := h
            exact ⟨_ :: bs, congrArg (· + 1) hlen, (gives_cons hread).mpr ⟨rfl, hrest⟩, hechoes⟩
        rw [hnext, Listener.step_byte hread]
        by_cases hb : isTerminator (buf'.headD 0) = true
        · simp only [hb, if_true, onlyEchoes_line hq hb]
          by_cases hecho : q = sent
          · -- an echo: the next line begins
            simp only [hecho, if_true, true_and, ih open_nil, List.nil_append]
          · simp [hecho]
        · -- one more byte of a line
          have hopen : Open isTerminator (q ++ [buf'.headD 0]) :=
            hq.append (open_cons.mpr ⟨Bool.eq_false_iff.mpr hb, open_nil⟩)
          simp only [hb, Bool.false_eq_true, if_false, ih hopen, List.append_assoc,
            List.singleton_append]

/-! ## Sends that do not return -/

theorem not_halts_iff {τ κ : Type} {step : τ → τ ⊕ κ} {a : τ} :
    (¬ ∃ r, Halts step a r) ↔ ∀ n, iterate step n a = none := by
  constructor
  · intro h n
    cases hn : iterate step n a with
    | none => rfl
    | some r => exact absurd ⟨r, n, hn⟩ h
  · intro h hr
    obtain ⟨r, n, hn⟩ := hr
    rw [h n] at hn
    cases hn

/-- After any sends the parser holds a line again. -/
theorem SendAll.holds {s s' : Session T} {rs : List (Command × Except (Error ε) Response)}
    (h : SendAll s rs s') (hl : ∃ l, s.parser.Holds l) : ∃ l, s'.parser.Holds l := by
  induction h with
  | nil => exact hl
  | cons hs _ ih =>
      obtain ⟨l, hl⟩ := hl
      exact ih (hs.holds hl)

/-- **A send returns** unless its listener runs for ever. -/
theorem sends_or_hangs {s : Session T} {l : List UInt8} (hl : s.parser.Holds l) (c : Command) :
    (¬ ∃ r s', s.Sends c r s') ↔
      c.Accepted ∧ ∃ t, Transport.write s.transport (c.payload ++ [byte '\r']) = (.ok (), t) ∧
        ∀ n, iterate (Listener.step c.payload) n (Listener.start t l) = none := by
  constructor
  · intro h
    by_cases hc : c.Accepted
    · cases hw : Transport.write s.transport (c.payload ++ [byte '\r']) with
      | mk written t =>
          cases written with
          | error e => exact absurd ⟨_, _, 0, send_write_error hc hw 0⟩ h
          | ok _ =>
              refine ⟨hc, t, rfl, not_halts_iff.mp fun hr => ?_⟩
              obtain ⟨heard, hhalts⟩ := hr
              obtain ⟨s', hsends, -⟩ := halts_sends hc hw hl hhalts
              exact h ⟨_, s', hsends⟩
    · obtain ⟨msg, hmsg⟩ := encodeInto_rejected hc (List.replicate 32 0)
      exact absurd ⟨_, _, 0, send_rejected hmsg s 0⟩ h
  · intro h hr
    obtain ⟨hc, t, hw, hruns⟩ := h
    obtain ⟨r, s', hsends⟩ := hr
    obtain ⟨l', -, hhalts⟩ := sends_halts hc hw hl hsends
    exact not_halts_iff.mpr hruns ⟨_, hhalts⟩

/-- **When a send does not return.** On every transport, and whatever has
been sent before: exactly when the frame is written, every read behind it
delivers a byte, and every line that comes is the frame itself. -/
theorem send_hangs_iff (t₀ : T) (rs : List (Command × Except (Error ε) Response))
    (s : Session T) (h : SendAll (Session.new t₀) rs s) (c : Command) :
    (¬ ∃ r s', s.Sends c r s') ↔
      c.Accepted ∧ ∃ t, Transport.write s.transport (c.payload ++ [byte '\r']) = (.ok (), t) ∧
        ∀ n, ∃ bs, bs.length = n ∧ Gives [0] t bs ∧ OnlyEchoes c.payload bs := by
  obtain ⟨l, hl⟩ := h.holds ⟨[], Parser.new_holds⟩
  rw [sends_or_hangs hl c]
  simp only [Listener.start, iterate_eq_none _ open_nil, List.nil_append]

/-- A line that carries one byte again and again. -/
structure Noise where
  noise : UInt8

instance : Transport Noise Empty where
  write self _ := (.ok (), self)
  read self buf := ((.ok buf.length, List.replicate buf.length self.noise), self)
  read_length _ _ := List.length_replicate

theorem Noise.gives (b : UInt8) (n : Nat) (x : UInt8) :
    Gives [x] (⟨b⟩ : Noise) (List.replicate n b) := by
  induction n generalizing x with
  | zero => exact .nil _ _
  | succ n ih => exact .cons rfl (ih b)

/-- No terminator ever comes. -/
theorem send_hangs_iff_noise : ¬ ∃ r s', (Session.new (⟨byte 'x'⟩ : Noise)).Sends .stop r s' := by
  refine (send_hangs_iff _ [] _ (.nil _) .stop).mpr ⟨trivial, _, rfl, fun n => ?_⟩
  refine ⟨List.replicate n (byte 'x'), List.length_replicate, Noise.gives _ n 0,
    onlyEchoes_open fun b hb => ?_⟩
  rw [List.eq_of_mem_replicate hb]
  rfl

/-! ## Ports that run dry -/

/-- After each write, finitely many bytes can be read. -/
def RunsDry (T : Type) {ε : Type} [Transport T ε] : Prop :=
  ∀ (t : T) (frame : List UInt8) (t' : T), Transport.write t frame = (.ok (), t') →
    ∃ n, ∀ bs, Gives [0] t' bs → bs.length ≤ n

/-- A port that runs dry lets every send return. -/
theorem RunsDry.sends (hdry : RunsDry T) {s : Session T} (hl : ∃ l, s.parser.Holds l)
    (c : Command) : ∃ r s', s.Sends c r s' := by
  obtain ⟨l, hl⟩ := hl
  apply Classical.byContradiction
  intro h
  obtain ⟨-, t, hw, hruns⟩ := (sends_or_hangs hl c).mp h
  obtain ⟨n, hn⟩ := hdry _ _ _ hw
  obtain ⟨bs, hlen, hgives, -⟩ := (iterate_eq_none (n + 1) open_nil).mp (hruns (n + 1))
  exact absurd (hn bs hgives) (by omega)

theorem RunsDry.makes (hdry : RunsDry T) (p : Client ε ω α) {s : Session T}
    (hl : ∃ l, s.parser.Holds l) : ∃ rs os a s', p.Makes rs os a ∧ SendAll s rs s' := by
  induction p generalizing s with
  | done a => exact ⟨[], [], a, s, .done a, .nil s⟩
  | print o rest ih =>
      obtain ⟨rs, os, a, s', hmakes, hsends⟩ := ih hl
      exact ⟨rs, o :: os, a, s', .print hmakes, hsends⟩
  | call c rest ih =>
      obtain ⟨r, s₁, hsend⟩ := hdry.sends hl c
      obtain ⟨l, hl⟩ := hl
      obtain ⟨rs, os, a, s', hmakes, hsends⟩ := ih r (hsend.holds hl)
      exact ⟨(c, r) :: rs, os, a, s', .call hmakes, .cons hsend hsends⟩

/-- **Every client ends** on a port that runs dry, whatever the port
delivers and however it fails. -/
theorem client_ends (hdry : RunsDry T) (p : Client ε ω α) (t : T) :
    ∃ fuel os a s', p.run fuel (Session.new t) = .ok (some (os, a, s')) := by
  obtain ⟨rs, os, a, s', hmakes, hsends⟩ := hdry.makes p (s := Session.new t) ⟨[], Parser.new_holds⟩
  obtain ⟨fuel, hrun⟩ := Client.run_iff.mpr ⟨rs, hmakes, hsends⟩
  exact ⟨fuel, os, a, s', hrun⟩

/-- A read that delivers takes a byte. -/
theorem Scripted.rx_length_of_read {t t' : Scripted ε} {buf buf' : List UInt8} {n : Nat}
    (h : Transport.read t buf = ((.ok (n + 1), buf'), t')) :
    t.rx.length = t'.rx.length + 1 := by
  obtain ⟨rx, replies, ending, calls⟩ := t
  cases rx with
  | nil => cases ending <;> cases h
  | cons b rx =>
      cases buf with
      | nil => cases h
      | cons x buf =>
          cases h
          rfl

theorem Scripted.gives_length {t : Scripted ε} {buf bs : List UInt8} (h : Gives buf t bs) :
    bs.length ≤ t.rx.length := by
  induction h with
  | nil => exact Nat.zero_le _
  | cons hread _ ih =>
      rw [rx_length_of_read hread, List.length_cons]
      exact Nat.succ_le_succ ih

theorem Scripted.runsDry : RunsDry (Scripted ε) :=
  fun _ _ t' _ => ⟨t'.rx.length, fun _ => gives_length⟩

/-- `serial_home` with a device that answers once, and then no more. -/
theorem client_ends_home :
    ∃ fuel os a s', (home Empty.elim).run fuel
      (Session.new (⟨[], [bytes "+\r"], none, []⟩ : Scripted Empty)) = .ok (some (os, a, s')) :=
  client_ends Scripted.runsDry _ _

end Easycom
