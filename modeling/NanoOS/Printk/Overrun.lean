/-
# Where a format ends

The loop of `vfprintf` ends at the zero of the format, unless that is the
character a `%` looks at: then `str` goes on behind it. The formats this happens
to end with an odd number of `%`, since a `%` behind a `%` is skipped. The memory is
flat, so that there is a zero behind every string argument.

Key definitions: `Complete`, `trailing`.
Key theorems: `loop_inside`, `loop_overrun`, `complete_iff`,
`vfprintf_inside_iff`.
-/
import NanoOS.Printk.Format

namespace NanoOS
namespace Printk

/-- Every `%` that is not skipped is followed by a character. -/
def Complete : List (BitVec 8) → Prop
  | c :: d :: fmt => if c = 37 then Complete fmt else Complete (d :: fmt)
  | [c] => c ≠ 37
  | [] => True

/-- The number of `%` at the end of a format. -/
def trailing (fmt : List (BitVec 8)) : ℕ := (fmt.reverse.takeWhile (· = 37)).length

/-! ### The `%` at the end -/

theorem trailing_le (fmt : List (BitVec 8)) : trailing fmt ≤ fmt.length := by
  have hlen : fmt.reverse.length = fmt.length := List.length_reverse
  exact hlen ▸ (List.takeWhile_sublist _).length_le

theorem trailing_cons (c : BitVec 8) (fmt : List (BitVec 8)) : trailing (c :: fmt) =
    if trailing fmt = fmt.length then (if c = 37 then fmt.length + 1 else fmt.length) else trailing fmt := by
  unfold trailing
  rw [List.reverse_cons, List.takeWhile_append, List.length_reverse]
  by_cases hall : (fmt.reverse.takeWhile (· = 37)).length = fmt.length
  · rw [if_pos hall, if_pos hall, List.length_append, List.length_reverse]
    by_cases hc : c = 37
    · rw [if_pos hc, hc]
      rfl
    · rw [if_neg hc, List.takeWhile_cons_of_neg (by simpa using hc)]
      rfl
  · rw [if_neg hall, if_neg hall]

/-- **A format is complete if the number of `%` at its end is even.** -/
theorem complete_iff : ∀ fmt : List (BitVec 8), Complete fmt ↔ trailing fmt % 2 = 0
  | [] => ⟨fun _ => rfl, fun _ => trivial⟩
  | [c] => by
    have hone : trailing [c] = if c = 37 then 1 else 0 := (trailing_cons c []).trans (if_pos rfl)
    show c ≠ 37 ↔ _
    rw [hone]
    by_cases hc : c = 37
    · rw [if_pos hc]
      exact ⟨fun h => absurd hc h, fun h => absurd h (by decide)⟩
    · rw [if_neg hc]
      exact ⟨fun _ => rfl, fun _ => hc⟩
  | c :: d :: fmt => by
    have hle := trailing_le fmt
    have hd := trailing_cons d fmt
    have hcd := trailing_cons c (d :: fmt)
    rw [List.length_cons] at hcd
    show (if c = 37 then Complete fmt else Complete (d :: fmt)) ↔ _
    by_cases hc : c = 37
    · rw [if_pos hc, complete_iff fmt]
      rw [if_pos hc] at hcd
      split_ifs at hd hcd
      all_goals omega
    · rw [if_neg hc, complete_iff (d :: fmt)]
      rw [if_neg hc] at hcd
      split_ifs at hcd
      all_goals omega

/-! ### Reading the format -/

section loop

variable {mem : Mem} {args : ℕ → Word} {s s' : Locals} {fuel : ℕ}

theorem exists_stringAt {z : Word} (hz : mem z = 0) (p : Word) : ∃ t, StringAt mem p t := by
  induction hn : (z - p).toNat generalizing p with
  | zero =>
    have hzp : z = p := by bv_omega
    exact ⟨[], hzp ▸ hz⟩
  | succ n ih =>
    by_cases hp : mem p = 0
    · exact ⟨[], hp⟩
    · obtain ⟨t, ht⟩ := ih (p + 1) (by bv_omega)
      exact ⟨mem p :: t, rfl, hp, ht⟩

theorem exists_zero : ∀ {t : List (BitVec 8)} {p : Word}, StringAt mem p t → ∃ z, mem z = 0
  | [], p, h => ⟨p, h⟩
  | _ :: _, _, h => exists_zero h.2.2

theorem directive_frame (h : directive mem args fuel s = some s') : s'.str = s.str ∧ s'.reads = s.reads := by
  unfold directive at h
  split_ifs at h
  · obtain ⟨x, -, h⟩ := Option.bind_eq_some_iff.mp h
    obtain ⟨printed, -, h⟩ := Option.bind_eq_some_iff.mp h
    cases h
    exact ⟨rfl, rfl⟩
  · obtain ⟨x, -, h⟩ := Option.bind_eq_some_iff.mp h
    obtain ⟨printed, -, h⟩ := Option.bind_eq_some_iff.mp h
    cases h
    exact ⟨rfl, rfl⟩
  · obtain ⟨printed, -, h⟩ := Option.bind_eq_some_iff.mp h
    cases h
    exact ⟨rfl, rfl⟩
  · cases h
    exact ⟨rfl, rfl⟩
  · cases h
    exact ⟨rfl, rfl⟩

theorem directive_ends {z : Word} (hz : mem z = 0) (hbuf : s.buffer.length = 13) : ∃ n s', s'.buffer.length = 13 ∧
    ∀ fuel, n ≤ fuel → directive mem args fuel s = some s' := by
  by_cases hdir : mem s.str = 100 ∨ mem s.str = 120 ∨ mem s.str = 115 ∨ mem s.str = 99
  · obtain ⟨r, hr⟩ := exists_rendered hdir fun _ => exists_stringAt hz (args s.i)
    obtain ⟨buffer, hlen, heq⟩ := directive_rendered hr hbuf
    exact ⟨r.length + 1, _, hlen, heq⟩
  · simp only [not_or] at hdir
    obtain ⟨hd, hx, hs, hc⟩ := hdir
    refine ⟨0, s, hbuf, fun fuel _ => ?_⟩
    unfold directive
    rw [if_neg hd, if_neg hx, if_neg hs, if_neg hc]

theorem loop_reads (h : vfprintfLoop mem args fuel s = some s') : s.str ∈ s'.reads ∧ ∀ a ∈ s.reads, a ∈ s'.reads := by
  induction fuel generalizing s with
  | zero => cases h
  | succ fuel ih =>
    have hread : ∀ {reads : List Word}, (∀ a ∈ s.reads ++ [s.str], a ∈ reads) →
        s.str ∈ reads ∧ ∀ a ∈ s.reads, a ∈ reads := fun hsub =>
      ⟨hsub _ (List.mem_append_right _ List.mem_cons_self), fun a ha => hsub a (List.mem_append_left _ ha)⟩
    by_cases hzero : mem s.str = 0
    · rw [loop_zero hzero] at h
      cases h
      exact hread fun a ha => ha
    by_cases hc : mem s.str = 37
    · rw [loop_percent hc] at h
      obtain ⟨s1, hs1, h⟩ := Option.bind_eq_some_iff.mp h
      apply hread
      intro a ha
      apply (ih h).2 a
      show a ∈ s1.reads
      rw [(directive_frame hs1).2]
      exact List.mem_append_left _ ha
    · rw [loop_literal rfl hzero hc] at h
      exact hread (ih h).2

theorem add_ofNat_add (p : Word) (j k : ℕ) :
    p + BitVec.ofNat 32 j + BitVec.ofNat 32 k = p + BitVec.ofNat 32 (j + k) := by
  rw [BitVec.ofNat_add, BitVec.add_assoc]

/-- On the way from `s` to `s'` the format is read up to `n` characters behind
`s.str`. -/
def ReadsTo (s s' : Locals) (n : ℕ) : Prop := ∀ a ∈ s'.reads, a ∈ s.reads ∨ ∃ k ≤ n, a = s.str + BitVec.ofNat 32 k

theorem ReadsTo.later {s1 : Locals} {n j : ℕ} (h : ReadsTo s1 s' n) (hstr : s1.str = s.str + BitVec.ofNat 32 j)
    (hreads : ReadsTo s s1 j) : ReadsTo s s' (n + j) := by
  intro a ha
  rcases h a ha with h1 | ⟨k, hk, rfl⟩
  · exact (hreads a h1).imp_right fun ⟨k, hk, heq⟩ => ⟨k, by omega, heq⟩
  · refine Or.inr ⟨j + k, by omega, ?_⟩
    rw [hstr, add_ofNat_add]

theorem readsTo_read (s : Locals) {s' : Locals} (h : s'.reads = s.reads ++ [s.str]) (n : ℕ) : ReadsTo s s' n := by
  intro a ha
  rw [h] at ha
  rcases List.mem_append.mp ha with h1 | h1
  · exact Or.inl h1
  · refine Or.inr ⟨0, Nat.zero_le n, ?_⟩
    rw [List.mem_singleton.mp h1, BitVec.add_zero]

/-- **A complete format is read up to its zero.** -/
theorem loop_inside {z : Word} (hz : mem z = 0) : ∀ {fmt : List (BitVec 8)} (s : Locals), Complete fmt →
    StringAt mem s.str fmt → s.buffer.length = 13 → ∃ n s',
      (∀ fuel, n ≤ fuel → vfprintfLoop mem args fuel s = some s') ∧ ReadsTo s s' fmt.length
  | [], s, _, hstr, _ => by
    refine ⟨1, s.read, fun fuel hfuel => ?_, readsTo_read s rfl 0⟩
    obtain ⟨fuel, rfl⟩ := Nat.exists_eq_add_of_le' hfuel
    exact loop_zero hstr
  | [c], s, hc, hstr, hbuf => by
    obtain ⟨n, s', heq, hin⟩ := @loop_inside z hz [] (s.read.printer [c]).advance trivial hstr.2.2 hbuf
    refine ⟨n + 1, s', fun fuel hfuel => ?_, hin.later (j := 1) rfl (readsTo_read s rfl 1)⟩
    obtain ⟨fuel, rfl⟩ := Nat.exists_eq_add_of_le' (Nat.le_trans (Nat.le_add_left 1 n) hfuel)
    exact (loop_literal hstr.1 hstr.2.1 hc).trans (heq fuel (by omega))
  | c :: d :: fmt, s, hcomp, hstr, hbuf => by
    by_cases hc : c = 37
    · have hrest : Complete fmt := (if_pos hc).mp hcomp
      obtain ⟨n1, s1, hlen, hdir⟩ := @directive_ends mem args s.read.advance.read z hz hbuf
      obtain ⟨hstr1, hreads1⟩ := directive_frame (hdir n1 (Nat.le_refl n1))
      have hnext : s1.advance.str = s.str + 2 := by
        show s1.str + 1 = _
        rw [hstr1]
        exact BitVec.add_assoc s.str 1 1
      have hread : ReadsTo s s1.advance 2 := by
        have hreads : s1.advance.reads = s.read.reads ++ [s.str + 1] := hreads1
        intro a ha
        rw [hreads] at ha
        rcases List.mem_append.mp ha with h1 | h1
        · exact @readsTo_read s s.read rfl 2 a h1
        · exact Or.inr ⟨1, by decide, List.mem_singleton.mp h1⟩
      have hstr2 : StringAt mem s1.advance.str fmt := by
        have hfmt : StringAt mem (s.str + 1 + 1) fmt := hstr.2.2.2.2
        rw [BitVec.add_assoc] at hfmt
        exact hnext ▸ hfmt
      obtain ⟨n, s', heq, hin⟩ := loop_inside hz s1.advance hrest hstr2 hlen
      refine ⟨n + n1 + 1, s', fun fuel hfuel => ?_, hin.later (j := 2) hnext hread⟩
      obtain ⟨fuel, rfl⟩ := Nat.exists_eq_add_of_le' (Nat.le_trans (Nat.le_add_left 1 (n + n1)) hfuel)
      rw [loop_percent (hstr.1.trans hc), hdir fuel (by omega)]
      exact heq fuel (by omega)
    · have hrest : Complete (d :: fmt) := (if_neg hc).mp hcomp
      obtain ⟨n, s', heq, hin⟩ := loop_inside hz (s.read.printer [c]).advance hrest hstr.2.2 hbuf
      refine ⟨n + 1, s', fun fuel hfuel => ?_, hin.later (j := 1) rfl (readsTo_read s rfl 1)⟩
      obtain ⟨fuel, rfl⟩ := Nat.exists_eq_add_of_le' (Nat.le_trans (Nat.le_add_left 1 n) hfuel)
      exact (loop_literal hstr.1 hstr.2.1 hc).trans (heq fuel (by omega))

theorem of_loop_percent (hc : mem s.str = 37) (h : vfprintfLoop mem args (fuel + 1) s = some s') :
    ∃ s1 : Locals, s1.str = s.str + BitVec.ofNat 32 2 ∧ vfprintfLoop mem args fuel s1 = some s' := by
  rw [loop_percent hc] at h
  obtain ⟨s1, hs1, h⟩ := Option.bind_eq_some_iff.mp h
  refine ⟨s1.advance, ?_, h⟩
  show s1.str + 1 = _
  rw [(directive_frame hs1).1]
  exact BitVec.add_assoc s.str 1 1

/-- **A format that is not complete is read behind its zero**, if the loop ends. -/
theorem loop_overrun : ∀ {fmt : List (BitVec 8)} {fuel : ℕ} {s : Locals}, ¬ Complete fmt → StringAt mem s.str fmt →
    vfprintfLoop mem args fuel s = some s' → s.str + BitVec.ofNat 32 (fmt.length + 1) ∈ s'.reads
  | _, 0, _, _, _, h => by cases h
  | [], _, _, hcomp, _, _ => absurd trivial hcomp
  | [c], fuel + 1, s, hcomp, hstr, h => by
    have hc : c = 37 := not_not.mp hcomp
    obtain ⟨s1, hs1, h⟩ := of_loop_percent (hstr.1.trans hc) h
    exact hs1 ▸ (loop_reads h).1
  | c :: d :: fmt, fuel + 1, s, hcomp, hstr, h => by
    by_cases hc : c = 37
    · obtain ⟨s1, hs1, h⟩ := of_loop_percent (hstr.1.trans hc) h
      have hrest : ¬ Complete fmt := fun hf => hcomp ((if_pos hc).mpr hf)
      have hstr1 : StringAt mem s1.str fmt := by
        have hfmt : StringAt mem (s.str + 1 + 1) fmt := hstr.2.2.2.2
        rw [BitVec.add_assoc] at hfmt
        exact hs1 ▸ hfmt
      have hread := loop_overrun hrest hstr1 h
      have hidx : 2 + (fmt.length + 1) = (c :: d :: fmt).length + 1 := by
        rw [List.length_cons, List.length_cons]
        omega
      rw [hs1, add_ofNat_add, hidx] at hread
      exact hread
    · have hrest : ¬ Complete (d :: fmt) := fun hf => hcomp ((if_neg hc).mpr hf)
      rw [loop_literal hstr.1 hstr.2.1 hc] at h
      have hread := loop_overrun hrest hstr.2.2 h
      have hidx : 1 + ((d :: fmt).length + 1) = (c :: d :: fmt).length + 1 := Nat.add_comm 1 _
      rw [← hidx, ← add_ofNat_add]
      exact hread

end loop

/-! ### All formats -/

/-- **`vfprintf` stays inside its format exactly if the number of `%` at its end is
even.** Whatever the arguments are: then the loop ends, and every read of the
format is of one of its characters or of its zero. -/
theorem vfprintf_inside_iff {mem : Mem} {ctl : Word} {fmt : List (BitVec 8)} (hctl : StringAt mem ctl fmt)
    (hfits : ctl.toNat + fmt.length + 1 < 4294967296) (args : ℕ → Word) (buffer : Vector (BitVec 8) 13) :
    (∃ fuel s, vfprintf mem args buffer ctl fuel = some s ∧
      ∀ a ∈ s.reads, ctl.toNat ≤ a.toNat ∧ a.toNat ≤ ctl.toNat + fmt.length) ↔ trailing fmt % 2 = 0 := by
  have haddr : ∀ k ≤ fmt.length + 1, (ctl + BitVec.ofNat 32 k).toNat = ctl.toNat + k := by
    intro k hk
    rw [BitVec.toNat_add, BitVec.toNat_ofNat]
    omega
  rw [← complete_iff]
  constructor
  · rintro ⟨fuel, s, heq, hin⟩
    by_contra hcomp
    have hread := hin _ (loop_overrun hcomp hctl heq)
    rw [haddr _ (Nat.le_refl _)] at hread
    omega
  · intro hcomp
    obtain ⟨z, hz⟩ : ∃ z, mem z = 0 := exists_zero hctl
    obtain ⟨n, s, heq, hin⟩ := @loop_inside mem args z hz _ ⟨ctl, 0, buffer.toList, [], [], []⟩ hcomp hctl
      buffer.size_toArray
    refine ⟨n, s, heq n (Nat.le_refl n), fun a ha => ?_⟩
    rcases hin a ha with h | ⟨k, hk, rfl⟩
    · exact absurd h List.not_mem_nil
    · have hk' := haddr k (by omega)
      show ctl.toNat ≤ (ctl + BitVec.ofNat 32 k).toNat ∧ (ctl + BitVec.ofNat 32 k).toNat ≤ _
      omega

/-- `"100%%"` at 0x1000. -/
def hundred : Mem := fun p => [49, 48, 48, 37, 37, 0].getD (p - 0x1000).toNat 0

/-- Two `%` at the end are harmless. -/
theorem vfprintf_inside_hundred : ∃ fuel s,
    vfprintf hundred (fun _ => 0) (Vector.replicate 13 0) 0x1000 fuel = some s ∧
    ∀ a ∈ s.reads, 0x1000 ≤ a.toNat ∧ a.toNat ≤ 0x1005 :=
  (@vfprintf_inside_iff hundred 0x1000 [49, 48, 48, 37, 37] (by decide) (by decide) (fun _ => 0)
    (Vector.replicate 13 0)).mpr (by decide)

/-- `"%"` at 0x1000. -/
def loneSign : Mem := fun p => [37, 0].getD (p - 0x1000).toNat 0

/-- One `%` at the end leads behind the zero. -/
theorem not_vfprintf_inside : ¬ ∀ (mem : Mem) (ctl : Word) (fmt : List (BitVec 8)), StringAt mem ctl fmt →
    ctl.toNat + fmt.length + 1 < 4294967296 → ∀ (args : ℕ → Word) (buffer : Vector (BitVec 8) 13),
    ∃ fuel s, vfprintf mem args buffer ctl fuel = some s ∧
      ∀ a ∈ s.reads, ctl.toNat ≤ a.toNat ∧ a.toNat ≤ ctl.toNat + fmt.length := by
  intro h
  obtain ⟨fuel, s, heq, hin⟩ := h loneSign 0x1000 [37] (by decide) (by decide) (fun _ => 0) (Vector.replicate 13 0)
  have hread := @loop_overrun loneSign _ _ [37] _ _ (fun hc => hc rfl) (by decide) heq
  exact absurd (hin _ hread).2 (by decide)

end Printk
end NanoOS
