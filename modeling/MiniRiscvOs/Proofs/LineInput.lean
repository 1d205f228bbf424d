import MiniRiscvOs.Kernel.LineInput
import MiniRiscvOs.Proofs.Printf

/-!
# `MiniRiscvOs.Proofs.LineInput`: the line that is typed and printed again

`lib_gets` stores what is typed, whatever its length, and the NUL behind
it. `osMain_eq` says what `os_main` does on any line. It prints the line
again up to its first NUL, so `lineInput_iff` asks for a line without one
that fits in `str` together with the NUL of `lib_gets`.
-/

set_option autoImplicit false

namespace MiniRiscvOs.Proofs

open MiniRiscvOs.Lib
open MiniRiscvOs.Kernel
open MiniRiscvOs.Kernel.LineInput

/-- What is typed, up to and including the first line feed or carriage
return, and after it. -/
structure TypedLine where
  line : List Byte
  terminator : Byte
  rest : List Byte
  plain : ∀ b ∈ line, ¬ (b = newline ∨ b = carriageReturn)
  ends : terminator = newline ∨ terminator = carriageReturn

/-- The stream of bytes. -/
def TypedLine.typed (t : TypedLine) : List Byte := t.line ++ t.terminator :: t.rest

/-- The memory with `bs` from `p` on. -/
def storeBytes (m : Mem) : Addr → List Byte → Mem
  | _, [] => m
  | p, b :: bs => storeBytes (store8 m p b) (p + 1#32) bs

/-- The `k` addresses from `p` on. -/
def addrsFrom (p : Addr) (k : Nat) : List Addr :=
  (List.range k).map fun i => p + BitVec.ofNat 32 i

/-- The first address, and those from the next one on. -/
theorem addrsFrom_succ (p : Addr) (k : Nat) :
    addrsFrom p (k + 1) = p :: addrsFrom (p + 1#32) k := by
  rw [addrsFrom, List.range_succ_eq_map, List.map_cons, List.map_map]
  congr 1
  · exact add_ofNat_zero p
  · exact List.map_congr_left fun i _ => (add_one_add_ofNat p i).symm

/-- No other address changes. -/
theorem storeBytes_of_lt (bs : List Byte) :
    ∀ (m : Mem) (p : Addr) (x : Addr), (∀ i, i < bs.length → x ≠ p + BitVec.ofNat 32 i) →
      storeBytes m p bs x = m x := by
  induction bs with
  | nil => exact fun _ _ _ _ => rfl
  | cons b bs ih =>
      intro m p x h
      have hfirst : x ≠ p := by
        have hne := h 0 (Nat.succ_pos _)
        rwa [add_ofNat_zero] at hne
      rw [storeBytes, ih _ _ x (fun i hi => by
        rw [add_one_add_ofNat]
        exact h (i + 1) (Nat.succ_lt_succ hi)), store8_of_ne m b hfirst]

/-- Each byte stands at its place. -/
theorem storeBytes_at (bs : List Byte) :
    ∀ (m : Mem) (p : Addr), bs.length ≤ 2 ^ 32 → ∀ i, ∀ hi : i < bs.length,
      storeBytes m p bs (p + BitVec.ofNat 32 i) = bs[i] := by
  induction bs with
  | nil => exact fun _ _ _ i hi => absurd hi (Nat.not_lt_zero i)
  | cons b bs ih =>
      intro m p hlen i hi
      rw [List.length_cons] at hlen hi
      cases i with
      | zero =>
          -- The bytes behind the first one go to other addresses.
          rw [add_ofNat_zero, storeBytes, storeBytes_of_lt bs _ _ p, store8_same]
          · rfl
          · intro i hi heq
            rw [add_one_add_ofNat] at heq
            have hzero : p + BitVec.ofNat 32 0 = p + BitVec.ofNat 32 (i + 1) := by
              rw [add_ofNat_zero]
              exact heq
            have := (add_ofNat_inj p (by omega) (by omega)).mp hzero
            omega
      | succ i =>
          have hrest := ih (store8 m p b) (p + 1#32) (by omega) i (by omega)
          rwa [add_one_add_ofNat] at hrest

/-- `lib_gets` over a line, up to its terminator. -/
theorem libGetsLoop_eq (t : TypedLine) (line : List Byte) :
    ∀ (p : Addr) (s : Terminal), (∀ b ∈ line, ¬ (b = newline ∨ b = carriageReturn)) →
      libGetsLoop p (line ++ t.terminator :: t.rest) s
        = some (p + BitVec.ofNat 32 line.length, t.rest,
          { mem := storeBytes s.mem p line
            sent := s.sent ++ line ++ [t.terminator]
            stored := s.stored ++ addrsFrom p line.length }) := by
  induction line with
  | nil =>
      intro p s _
      have hend : libGetsLoop p (t.terminator :: t.rest) s
          = some (p, t.rest, libPutc t.terminator s) := if_pos t.ends
      rw [List.nil_append, hend, List.length_nil, add_ofNat_zero]
      simp [libPutc, storeBytes, addrsFrom]
  | cons b line ih =>
      intro p s hplain
      -- A character that ends no line is echoed and stored.
      have hstep : libGetsLoop p (b :: (line ++ t.terminator :: t.rest)) s
          = libGetsLoop (p + 1#32) (line ++ t.terminator :: t.rest)
            ((libPutc b s).store p b) := if_neg (hplain b List.mem_cons_self)
      rw [List.cons_append, hstep, ih _ _ fun c hc => hplain c (List.mem_cons_of_mem b hc),
        List.length_cons, addrsFrom_succ, add_one_add_ofNat]
      simp [libPutc, Terminal.store, storeBytes]

section Main

variable (str : Addr) (m : Mem) (t : TypedLine)

/-- The memory after `lib_gets`. -/
def afterGets : Mem :=
  store8 (storeBytes m str t.line) (str + BitVec.ofNat 32 t.line.length) 0#8

/-- What `os_main` does with a line, if what it finds in `str` is `bs`. -/
theorem osMain_eq :
    osMain str t.typed ⟨m, [], []⟩
      = (cString (afterGets str m t) str).map fun bs =>
          (BitVec.ofNat 32 t.line.length,
            { mem := afterGets str m t
              sent := "type something:".toList.map asc ++ t.line ++ [t.terminator]
                ++ "\r\nyou type:".toList.map asc ++ bs ++ "\r\n".toList.map asc
              stored := addrsFrom str t.line.length
                ++ [str + BitVec.ofNat 32 t.line.length] }) := by
  -- `lib_gets` echoes the line, stores it with a NUL, and returns its length.
  have hgets : libGets str t.typed (putsText "type something:" ⟨m, [], []⟩)
      = some (BitVec.ofNat 32 t.line.length, t.rest,
        { mem := afterGets str m t
          sent := "type something:".toList.map asc ++ t.line ++ [t.terminator]
          stored := addrsFrom str t.line.length
            ++ [str + BitVec.ofNat 32 t.line.length] }) := by
    have hdiff : str + BitVec.ofNat 32 t.line.length - str = BitVec.ofNat 32 t.line.length := by
      rw [BitVec.add_comm, BitVec.add_sub_cancel]
    rw [libGets, TypedLine.typed, libGetsLoop_eq t t.line str _ t.plain, Option.map_some]
    show some (str + BitVec.ofNat 32 t.line.length - str, _, _) = _
    rw [hdiff]
    rfl
  simp only [osMain, hgets, Option.bind_eq_bind, Option.bind_some]
  show (Option.map _ (cString (afterGets str m t) str)).bind _ = _
  cases cString (afterGets str m t) str with
  | none => rfl
  | some bs => rfl

/-- After a line that does not go round the address space, `str` holds it
up to its first NUL, which may be the one of `lib_gets`. -/
theorem cString_afterGets (hlen : t.line.length < 2 ^ 32) {bs : List Byte}
    (hbs : bs <+: t.line) (hne : ∀ b ∈ bs, b ≠ 0#8)
    (hend : bs = t.line ∨ t.line[bs.length]? = some 0#8) :
    cString (afterGets str m t) str = some bs := by
  have hle := hbs.length_le
  have hat : ∀ i, ∀ hi : i < t.line.length,
      afterGets str m t (str + BitVec.ofNat 32 i) = t.line[i] := by
    intro i hi
    have hplace : str + BitVec.ofNat 32 i ≠ str + BitVec.ofNat 32 t.line.length := by
      rw [Ne, add_ofNat_inj str (by omega) hlen]
      omega
    rw [afterGets, store8_of_ne _ _ hplace, storeBytes_at t.line m str (by omega) i hi]
  refine cstr_eq _ bs str (2 ^ 32) hne ?_ ?_ (by omega)
  · intro i hi
    rw [hat i (by omega)]
    exact (hbs.getElem hi).symm
  · rcases hend with rfl | hnul
    · rw [afterGets, store8_same]
    · obtain ⟨hlt, hval⟩ := List.getElem?_eq_some_iff.mp hnul
      rw [hat _ hlt, hval]

/-- `os_main` on a typed line: it sends the prompt, the echo, the text of
the answer, the line and the line break, `lib_gets` returns the length of
the line, and all its stores go to `str`. -/
def PrintsBack : Prop :=
  ∃ n s, osMain str t.typed ⟨m, [], []⟩ = some (n, s) ∧
    s.sent = "type something:".toList.map asc ++ (t.line ++ [t.terminator])
      ++ "\r\nyou type:".toList.map asc ++ t.line ++ "\r\n".toList.map asc ∧
    n.toInt = t.line.length ∧ ∀ a ∈ s.stored, InRange str strSize a

/-- A line that comes back fits in `str` and has no NUL. -/
theorem fits_of_printsBack (h : PrintsBack str m t) :
    t.line.length < strSize ∧ 0#8 ∉ t.line := by
  obtain ⟨n, s, hrun, hsent, -, hstored⟩ := h
  rw [osMain_eq] at hrun
  obtain ⟨bs, hbs, hres⟩ := Option.map_eq_some_iff.mp hrun
  obtain ⟨-, rfl⟩ := Prod.mk.inj hres
  -- The store number 100 would go behind `str`.
  have hlen : t.line.length < strSize := by
    by_contra hge
    have hmem : str + BitVec.ofNat 32 strSize ∈ addrsFrom str t.line.length
        ++ [str + BitVec.ofNat 32 t.line.length] := by
      rcases Nat.lt_or_eq_of_le (Nat.le_of_not_lt hge) with hlt | heq
      · exact List.mem_append_left _ (List.mem_map_of_mem (List.mem_range.mpr hlt))
      · rw [heq]
        exact List.mem_append_right _ List.mem_cons_self
    have hin := (inRange_add_ofNat str (by decide)).mp (hstored _ hmem)
    exact Nat.lt_irrefl _ hin
  refine ⟨hlen, fun hnul => ?_⟩
  -- What is printed ends before the first NUL of the line.
  obtain ⟨pre, post, hline, hpre⟩ := List.eq_append_cons_of_mem hnul
  have hcut := cString_afterGets str m t (by unfold strSize at hlen; omega)
    (by rw [hline]; exact List.prefix_append _ _)
    (fun b hb h0 => hpre (h0 ▸ hb)) (Or.inr (by rw [hline]; simp))
  rw [hcut] at hbs
  obtain rfl := Option.some.inj hbs
  have hcount := congrArg List.length hsent
  have htotal := congrArg List.length hline
  simp only [List.length_append, List.length_cons] at hcount htotal
  omega

/-- When the line comes back as it was typed, within `str`: exactly when it
has less than 100 bytes and none of them is a NUL. -/
theorem lineInput_iff : PrintsBack str m t ↔ t.line.length < strSize ∧ 0#8 ∉ t.line := by
  constructor
  · exact fits_of_printsBack str m t
  · rintro ⟨hlen, hnul⟩
    have hsize : t.line.length < 100 := hlen
    have hback := cString_afterGets str m t (by omega) (List.prefix_refl _)
      (fun b hb h0 => hnul (h0 ▸ hb)) (Or.inl rfl)
    refine ⟨_, _, by rw [osMain_eq, hback]; rfl, ?_, ?_, ?_⟩
    · simp only [List.append_assoc]
    · have hnat : (BitVec.ofNat 32 t.line.length).toNat = t.line.length := by
        rw [BitVec.toNat_ofNat]
        exact Nat.mod_eq_of_lt (by omega)
      rw [BitVec.toInt_eq_toNat_of_lt (by omega), hnat]
    · intro a ha
      have hplace : ∃ i ≤ t.line.length, a = str + BitVec.ofNat 32 i := by
        rcases List.mem_append.mp ha with ha | ha
        · obtain ⟨i, hi, rfl⟩ := List.mem_map.mp ha
          exact ⟨i, Nat.le_of_lt (List.mem_range.mp hi), rfl⟩
        · exact ⟨_, Nat.le_refl _, List.mem_singleton.mp ha⟩
      obtain ⟨i, hi, rfl⟩ := hplace
      exact (inRange_add_ofNat str (by omega)).mpr (Nat.lt_of_le_of_lt hi hlen)

end Main

/-- A line of 100 bytes. -/
def hundredBytes : TypedLine where
  line := List.replicate 100 (asc 'a')
  terminator := newline
  rest := []
  plain := by
    intro b hb
    rw [List.eq_of_mem_replicate hb]
    decide
  ends := Or.inl rfl

/-- A line with a NUL in it. -/
def lineWithNul : TypedLine where
  line := [asc 'a', 0#8, asc 'b']
  terminator := carriageReturn
  rest := []
  plain := by decide
  ends := Or.inr rfl

/-- After 100 bytes the NUL of `lib_gets` goes behind `str`. A NUL in the
line ends what is printed again, so `b` is missing. -/
theorem lineInput_fails :
    (osMain 0x80001000#32 hundredBytes.typed ⟨fun _ => 0#8, [], []⟩).map
        (fun r => r.2.stored.getLast?) = some (some (0x80001000#32 + BitVec.ofNat 32 100)) ∧
      ¬ PrintsBack 0x80001000#32 (fun _ => 0#8) hundredBytes ∧
      (osMain 0x80001000#32 lineWithNul.typed ⟨fun _ => 0#8, [], []⟩).map (fun r => r.2.sent)
        = some ("type something:a\x00b\r\r\nyou type:a\r\n".toList.map asc) ∧
      ¬ PrintsBack 0x80001000#32 (fun _ => 0#8) lineWithNul := by
  have hlong : hundredBytes.line.length = 100 := rfl
  have hall : cString (afterGets 0x80001000#32 (fun _ => 0#8) hundredBytes) 0x80001000#32
      = some hundredBytes.line := by
    refine cString_afterGets _ _ _ (by decide) (List.prefix_refl _) ?_ (Or.inl rfl)
    intro b hb
    rw [List.eq_of_mem_replicate hb]
    decide
  -- The string ends with the NUL that was typed.
  have hcut : cString (afterGets 0x80001000#32 (fun _ => 0#8) lineWithNul) 0x80001000#32
      = some [asc 'a'] :=
    cString_afterGets _ _ _ (by decide) ⟨_, rfl⟩ (by decide) (Or.inr rfl)
  refine ⟨?_, ?_, ?_, ?_⟩
  · rw [osMain_eq, hall, hlong]
    simp
  · intro h
    exact absurd (fits_of_printsBack _ _ _ h).1 (by decide)
  · rw [osMain_eq, hcut]
    decide
  · intro h
    exact (fits_of_printsBack _ _ _ h).2 (by decide)

end MiniRiscvOs.Proofs
