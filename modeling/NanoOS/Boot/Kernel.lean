/-
# Loading the kernel

The loader writes whole sectors, and so before and behind a segment. When
segments have the same offset in a page in the file and in memory, these bytes
are in the pages of the segment; so segments with disjoint pages do not damage
each other, nor the program headers at 0x8000, in whatever order they come.

Key definitions: `header`, `SegmentHeader.Page`, `Bootable`.
Key theorems: `loadSegment_spec`, `kernel_image_loaded`.
-/
import NanoOS.Boot.Main

namespace NanoOS
namespace Boot

open Memory Image Pm

/-- Program header `e` of an ELF file. -/
def header (file : ℕ → BitVec 8) (e : ℕ) : SegmentHeader := segmentHeader fun a => file (phoff file + 32 * e + a)

namespace SegmentHeader

/-- Where the segment is loaded. -/
def pa (h : SegmentHeader) : ℕ := (h.paddr - koffset).toNat

/-- The pages of the segment; the one of its address is always one of them. -/
def Page (h : SegmentHeader) (p : ℕ) : Prop :=
  h.pa / 4096 ≤ p ∧ (p = h.pa / 4096 ∨ 4096 * p < h.pa + h.memsz.toNat)

/-- The sizes and the offset are below 2^31, and neither the segment nor the
sectors that are read for it wrap around. -/
structure Small (h : SegmentHeader) : Prop where
  off : h.off.toNat < 2147483648
  memsz : h.memsz.toNat < 2147483648
  filesz : h.filesz.toNat ≤ h.memsz.toNat
  wrap : h.pa + h.memsz.toNat < 4294967296
  sectors : h.pa - h.pa % 512 + 512 * sectors h.pa h.filesz.toNat < 4294967296

end SegmentHeader

/-- A file as the linker makes it. -/
structure Bootable (file : ℕ → BitVec 8) : Prop where
  table : phoff file + 32 * phnum file ≤ 4096
  small : ∀ e < phnum file, (header file e).Small
  aligned : ∀ e < phnum file, (header file e).off.toNat % 4096 = (header file e).paddr.toNat % 4096
  apart : ∀ e e', e < e' → e' < phnum file → ∀ p, (header file e).Page p → ¬ (header file e').Page p
  scratch : ∀ e < phnum file, ¬ (header file e).Page 8

/-- The bytes at 0x8000 are the first 4096 of the file. -/
def Scratch (file : ℕ → BitVec 8) (s : Machine) : Prop := ∀ i < 4096, s.mem (32768 + i) = file i

/-- The pages of segment `e`. -/
def footprint (file : ℕ → BitVec 8) (e a : ℕ) : Prop := (header file e).Page (a / 4096)

/-- What segment `e` wants. -/
def wanted (file : ℕ → BitVec 8) (e a : ℕ) : Option (BitVec 8) :=
  let h := header file e
  if h.pa ≤ a then content file h.off.toNat h.filesz.toNat h.memsz.toNat (a - h.pa) else none

theorem u32At_shift {b b' : ℕ → BitVec 8} {a a' : ℕ} (h : ∀ k < 4, b (a + k) = b' (a' + k)) :
    u32At b a = u32At b' a' := by
  have h0 := h 0 (by decide)
  have h1 := h 1 (by decide)
  have h2 := h 2 (by decide)
  have h3 := h 3 (by decide)
  unfold u32At u16At
  rw [Nat.add_assoc a, Nat.add_assoc a', ← h1, ← h2, ← h3, ← Nat.add_zero a, ← Nat.add_zero a', ← h0]

/-- The loop that writes zeros, where it leaves its own bound alone. -/
theorem zeroLoop_eq {ph pa : Word} (hi : Word) : ∀ {n : ℕ} {i : Word} {m : Mem}, n = hi.toNat - i.toNat →
    (∀ k ≤ n, pa + (segmentHeader (bytesAt ph (blit i.toNat k (fun _ => 0) m))).memsz = hi) →
    zeroLoop ph pa i m = blit i.toNat n (fun _ => 0) m
  | n, i, m, hn, hbound => by
    have hhi := hi.isLt
    have hnow := hbound 0 (Nat.zero_le n)
    rw [blit_zero] at hnow
    rw [zeroLoop, hnow]
    cases n with
    | zero =>
      have hge : ¬ i < hi := fun hlt => by
        have hlt' : i.toNat < hi.toNat := hlt
        omega
      rw [dif_neg hge, blit_zero]
    | succ n =>
      have hlt : i < hi := (by omega : i.toNat < hi.toNat)
      have hsucc : (i + 1).toNat = i.toNat + 1 := toNat_add_ofNat (p := i) (k := 1) (by omega)
      -- the cell that is written now, and the others
      have hfirst : ∀ k, blit (i + 1).toNat k (fun _ => 0) (Function.update m i.toNat 0) =
          blit i.toNat (k + 1) (fun _ => 0) m := by
        intro k
        rw [hsucc, Nat.add_comm k 1, ← blit_append, blit_succ, blit_zero]
        rfl
      have hrest := @zeroLoop_eq ph pa hi n (i + 1) (Function.update m i.toNat 0) (by omega) fun k hk => by
        rw [hfirst]
        exact hbound (k + 1) (by omega)
      rw [dif_pos hlt, hrest, hfirst]

theorem pa_aligned {h : SegmentHeader} (ha : h.off.toNat % 4096 = h.paddr.toNat % 4096) :
    h.off.toNat % 4096 = h.pa % 4096 := by
  have hk : koffset.toNat = 3221225472 := rfl
  have hlt := h.paddr.isLt
  unfold SegmentHeader.pa
  rw [BitVec.toNat_sub, hk]
  omega

/-- The memory after a segment: whole sectors of the file, and then zeros. -/
def segmentMem (file : ℕ → BitVec 8) (h : SegmentHeader) (m : Mem) : Mem :=
  blit (h.pa + h.filesz.toNat) (h.memsz.toNat - h.filesz.toNat) (fun _ => 0)
    (blit (h.pa - h.pa % 512) (512 * sectors h.pa h.filesz.toNat)
      (fun j => file (h.off.toNat - h.off.toNat % 512 + j)) m)

/-- The sectors that are read for a segment and the zeros behind them are in its pages. -/
theorem segment_outside {h : SegmentHeader} (hsmall : h.Small) {k : ℕ} (hk : k ≤ h.memsz.toNat - h.filesz.toNat)
    (g m : Mem) {a : ℕ} (ha : ¬ h.Page (a / 4096)) :
    blit (h.pa + h.filesz.toNat) k (fun _ => 0) (blit (h.pa - h.pa % 512) (512 * sectors h.pa h.filesz.toNat) g m) a =
      m a := by
  have hle := hsmall.filesz
  have hmod := Nat.mod_le h.pa 512
  unfold SegmentHeader.Page at ha
  have hsec : h.pa % 512 + h.filesz.toNat ≤ 512 * sectors h.pa h.filesz.toNat ∧
      512 * sectors h.pa h.filesz.toNat < h.pa % 512 + h.filesz.toNat + 512 := by
    unfold sectors
    omega
  rw [blit_outside _ _ (by omega), blit_outside _ _ (by omega)]

/-- One round of the loop, where `*ph` is the program header `h` and no change in its pages is one
to `*ph`. -/
theorem loadSegment_eq (image : ℕ → BitVec 8) {ph : Word} {s : Machine} {h : SegmentHeader}
    (hph : ∀ m : Mem, (∀ a, ¬ h.Page (a / 4096) → m a = s.mem a) → segmentHeader (bytesAt ph m) = h)
    (hsmall : h.Small) (ha : h.off.toNat % 4096 = h.pa % 4096) :
    ∃ s', loadSegment image ph s = some s' ∧ s'.mem = segmentMem (fun a => image (512 + a)) h s.mem := by
  have hle := hsmall.filesz
  have hmem := hsmall.memsz
  have hwrap := hsmall.wrap
  have hadd : ∀ n : Word, n.toNat ≤ h.memsz.toNat → (h.paddr - koffset + n).toNat = h.pa + n.toNat := by
    intro n hn
    rw [BitVec.toNat_add]
    exact Nat.mod_eq_of_lt (show h.pa + n.toNat < 4294967296 by omega)
  obtain ⟨s1, hread, hbytes⟩ : ∃ s1, readseg image (h.paddr - koffset) h.filesz h.off s = some s1 ∧
      s1.mem = blit (h.pa - h.pa % 512) (512 * sectors h.pa h.filesz.toNat)
        (fun j => image (512 + (h.off.toNat - h.off.toNat % 512 + j))) s.mem :=
    readseg_spec image hsmall.off (by omega) (show h.off.toNat % 512 = h.pa % 512 by omega) hsmall.sectors s
  have hhead : ∀ k ≤ h.memsz.toNat - h.filesz.toNat,
      segmentHeader (bytesAt ph (blit (h.pa + h.filesz.toNat) k (fun _ => 0) s1.mem)) = h := by
    intro k hk
    rw [hbytes]
    exact hph _ fun a hout => segment_outside hsmall hk _ _ hout
  have hread' := hhead 0 (Nat.zero_le _)
  rw [blit_zero] at hread'
  have hzero : zeroLoop ph (h.paddr - koffset) (h.paddr - koffset + h.filesz) s1.mem =
      segmentMem (fun a => image (512 + a)) h s.mem := by
    have hloop := @zeroLoop_eq ph (h.paddr - koffset) (h.paddr - koffset + h.memsz) _ (h.paddr - koffset + h.filesz)
      s1.mem rfl
    rw [hadd _ hle, hadd _ (Nat.le_refl _), Nat.add_sub_add_left] at hloop
    rw [hloop fun k hk => by rw [hhead k hk], hbytes]
    rfl
  refine ⟨{ s1 with mem := segmentMem (fun a => image (512 + a)) h s.mem }, ?_, rfl⟩
  unfold loadSegment
  simp only [hph _ fun _ _ => rfl, hread, Option.bind_eq_bind, Option.bind_some, Option.pure_def, hread', hzero]

/-- What the segment wants is in place, and outside its pages nothing has
changed. -/
theorem segmentMem_places {file : ℕ → BitVec 8} {h : SegmentHeader} (hsmall : h.Small)
    (ha : h.off.toNat % 4096 = h.pa % 4096) (m : Mem) :
    (∀ j x, content file h.off.toNat h.filesz.toNat h.memsz.toNat j = some x → segmentMem file h m (h.pa + j) = x) ∧
    ∀ a, ¬ h.Page (a / 4096) → segmentMem file h m a = m a := by
  have hle := hsmall.filesz
  have hmod := Nat.mod_le h.pa 512
  refine ⟨fun j x hx => ?_, fun a hout => segment_outside hsmall (Nat.le_refl _) _ _ hout⟩
  unfold segmentMem
  unfold content at hx
  split at hx
  · rename_i hj
    -- behind the bytes that are read before the segment
    have hpos : h.pa + j = h.pa - h.pa % 512 + (h.pa % 512 + j) := by omega
    have hoff : h.off.toNat - h.off.toNat % 512 + (h.pa % 512 + j) = h.off.toNat + j := by omega
    have hin : h.pa % 512 + j < 512 * sectors h.pa h.filesz.toNat := by
      unfold sectors
      omega
    rw [blit_outside _ _ (by omega), hpos, blit_inside _ _ hin, hoff]
    exact Option.some.inj hx
  · rename_i hge
    split at hx
    · rename_i hj
      have hpos : h.pa + j = h.pa + h.filesz.toNat + (j - h.filesz.toNat) := by omega
      rw [hpos, blit_inside _ _ (by omega)]
      exact Option.some.inj hx
    · cases hx

/-! ### All segments -/

section

variable {image file : ℕ → BitVec 8} {s s' : Machine}

theorem bytesAt_scratch (hs : Scratch file s) {p : Word} {n a : ℕ} (hp : p.toNat = 32768 + n) (ha : n + a < 4096) :
    bytesAt p s.mem a = file (n + a) := by
  unfold bytesAt
  rw [hp, Nat.mod_eq_of_lt (by omega), Nat.add_assoc]
  exact hs _ ha

theorem segmentHeader_scratch (hs : Scratch file s) {p : Word} {e : ℕ} (hp : p.toNat = 32768 + (phoff file + 32 * e))
    (he : phoff file + 32 * e + 32 ≤ 4096) : segmentHeader (bytesAt p s.mem) = header file e := by
  have hword : ∀ a, a + 4 ≤ 32 → u32At (bytesAt p s.mem) a = u32At (fun a => file (phoff file + 32 * e + a)) a :=
    fun a ha => u32At_shift fun k hk => bytesAt_scratch hs hp (by omega)
  unfold header segmentHeader
  rw [hword 4 (by decide), hword 12 (by decide), hword 16 (by decide), hword 20 (by decide)]

/-- The fields of the ELF header at 0x8000. -/
theorem elfHeader_scratch (hs : Scratch file s) : phoff (bytesAt 0x8000 s.mem) = phoff file ∧
    phnum (bytesAt 0x8000 s.mem) = phnum file ∧ entryPoint (bytesAt 0x8000 s.mem) = entryPoint file := by
  have helf : (0x8000 : Word).toNat = 32768 + 0 := rfl
  have hword : ∀ a, a + 4 ≤ 4096 → u32At (bytesAt 0x8000 s.mem) a = u32At file a := fun a ha =>
    u32At_shift fun k hk => (bytesAt_scratch hs helf (by omega)).trans (by rw [Nat.zero_add])
  refine ⟨congrArg BitVec.toNat (hword 28 (by decide)), ?_, hword 24 (by decide)⟩
  unfold phnum u16At
  rw [bytesAt_scratch hs helf (by decide), bytesAt_scratch hs helf (by decide)]

/-- The pointer `ph` takes one round for each program header. -/
theorem headers_range (htable : phoff file + 32 * phnum file ≤ 4096) :
    ((0x8000 : Word) + BitVec.ofNat 32 (phoff file)).toNat = 32768 + phoff file ∧
    (((0x8000 : Word) + BitVec.ofNat 32 (phoff file) + BitVec.ofNat 32 (32 * phnum file)).toNat -
      ((0x8000 : Word) + BitVec.ofNat 32 (phoff file)).toNat) / 32 = phnum file := by
  have helf : (0x8000 : Word).toNat = 32768 := rfl
  have hph : ((0x8000 : Word) + BitVec.ofNat 32 (phoff file)).toNat = 32768 + phoff file := by
    rw [toNat_add_ofNat (by rw [helf]; omega), helf]
  refine ⟨hph, ?_⟩
  rw [toNat_add_ofNat (by rw [hph]; omega), hph]
  omega

theorem readseg_scratch (himage : ∀ a, image (512 + a) = file a) (s : Machine) :
    ∃ s1, readseg image 0x8000 4096 0 s = some s1 ∧ Scratch file s1 := by
  obtain ⟨s1, hread, hbytes⟩ := @readseg_spec image 0x8000 4096 0 (by decide) (by decide) (by decide) (by decide) s
  refine ⟨s1, hread, fun i hi => ?_⟩
  rw [hbytes]
  show blit 32768 4096 (fun j => image (512 + (0 + j))) s.mem (32768 + i) = file i
  rw [blit_inside _ _ hi, Nat.zero_add]
  exact himage i

/-- **One segment.** -/
theorem loadSegment_spec (hfile : Bootable file) (himage : ∀ a, image (512 + a) = file a) (hs : Scratch file s) {e : ℕ}
    (he : e < phnum file) {ph : Word} (hph : ph.toNat = 32768 + phoff file) :
    ∃ s', loadSegment image (ph + BitVec.ofNat 32 (32 * e)) s = some s' ∧ Scratch file s' ∧
      Places (fun s : Machine => s.mem) (footprint file) (wanted file) e s s' := by
  have htable := hfile.table
  have ha := pa_aligned (hfile.aligned e he)
  have hp : (ph + BitVec.ofNat 32 (32 * e)).toNat = 32768 + (phoff file + 32 * e) := by
    rw [toNat_add_ofNat (by omega), hph, Nat.add_assoc]
  have hkept : ∀ m : Mem, (∀ a, ¬ (header file e).Page (a / 4096) → m a = s.mem a) →
      ∀ i < 4096, m (32768 + i) = file i := by
    intro m hsame i hi
    have hpage : (32768 + i) / 4096 = 8 := by omega
    rw [hsame _ (hpage ▸ hfile.scratch e he)]
    exact hs i hi
  obtain ⟨s', heq, hmem⟩ := @loadSegment_eq image _ s _
    (fun m hsame => segmentHeader_scratch (s := ⟨m, s.ide⟩) (hkept m hsame) hp (by omega)) (hfile.small e he) ha
  have hdisk : (fun a => image (512 + a)) = file := funext himage
  rw [hdisk] at hmem
  obtain ⟨hin, hout⟩ := @segmentMem_places file _ (hfile.small e he) ha s.mem
  refine ⟨s', heq, hkept _ fun a hfoot => ?_, fun a x hx => ?_, fun a hfoot => ?_⟩
  · rw [hmem]
    exact hout a hfoot
  · unfold wanted at hx
    dsimp only at hx
    split at hx
    · rename_i hle
      obtain ⟨j, rfl⟩ := Nat.exists_eq_add_of_le hle
      rw [Nat.add_sub_cancel_left] at hx
      rw [hmem]
      exact hin j x hx
    · cases hx
  · rw [hmem]
    exact hout a hfoot

theorem footprint_of_wanted (hfile : Bootable file) {e a : ℕ} (he : e < phnum file) {x : BitVec 8}
    (h : wanted file e a = some x) : footprint file e a := by
  unfold wanted at h
  dsimp only at h
  split at h
  · rename_i hle
    have hlt := content_lt (hfile.small e he).filesz h
    unfold footprint SegmentHeader.Page
    omega
  · cases h

theorem loadSegments_spec (hfile : Bootable file) (himage : ∀ a, image (512 + a) = file a) (hs : Scratch file s)
    {ph : Word} (hph : ph.toNat = 32768 + phoff file) : ∃ s', (List.range (phnum file)).foldlM (fun s e =>
      loadSegment image (ph + BitVec.ofNat 32 (32 * e)) s) s = some s' ∧ Scratch file s' ∧
      ∀ e < phnum file, ∀ a x, wanted file e a = some x → s'.mem a = x := by
  have hstep : ∀ e ∈ List.range (phnum file), ∀ t, Scratch file t → ∃ t',
      loadSegment image (ph + BitVec.ofNat 32 (32 * e)) t = some t' ∧ Scratch file t' ∧
      Places (fun s : Machine => s.mem) (footprint file) (wanted file) e t t' :=
    fun e he t ht => loadSegment_spec hfile himage ht (List.mem_range.mp he) hph
  obtain ⟨s', h⟩ := @foldlM_returns Machine ℕ (fun s e => loadSegment image (ph + BitVec.ofNat 32 (32 * e)) s)
    (Scratch file) (List.range (phnum file)) (fun e he t ht => by
      obtain ⟨t', heq, ht', -⟩ := hstep e he t ht
      exact ⟨t', heq, ht'⟩) s hs
  have hapart : (List.range (phnum file)).Pairwise fun e e' => ∀ a, footprint file e a → ¬ footprint file e' a :=
    List.Pairwise.imp_of_mem (fun {e e'} _ he' hlt a => hfile.apart e e' hlt (List.mem_range.mp he') (a / 4096))
      List.pairwise_lt_range
  obtain ⟨hscratch, hwant, -⟩ := placed_all (fun e he a x => footprint_of_wanted hfile (List.mem_range.mp he)) hapart
    (fun e he t t' ht heq => by
      obtain ⟨t'', heq', ht'', hplaces⟩ := hstep e he t ht
      obtain rfl := Option.some.inj (heq'.symm.trans heq)
      exact ⟨ht'', hplaces⟩) hs h
  exact ⟨s', h, hscratch, fun e he => hwant e (List.mem_range.mpr he)⟩

end

/-- **The boot loader loads the kernel.** From any state of the machine it comes
to the jump to the entry point, and then every segment is in the memory, with
zeros behind the bytes of the file. -/
theorem kernel_image_loaded (image file : ℕ → BitVec 8) (himage : ∀ a, image (512 + a) = file a) (hfile : Bootable file)
    (s : Machine) : ∃ s', bootmain image s = some (entryPoint file - koffset, s') ∧ ∀ e < phnum file,
      (∀ j < (header file e).filesz.toNat, s'.mem (((header file e).paddr - koffset).toNat + j) =
        file ((header file e).off.toNat + j)) ∧
      ∀ j, (header file e).filesz.toNat ≤ j → j < (header file e).memsz.toNat →
        s'.mem (((header file e).paddr - koffset).toNat + j) = 0 := by
  obtain ⟨s1, hread, hscratch⟩ := readseg_scratch himage s
  obtain ⟨hoff, hnum, -⟩ := elfHeader_scratch hscratch
  obtain ⟨hph, hcount⟩ := headers_range hfile.table
  obtain ⟨s', hloop, hscratch', hwant⟩ := loadSegments_spec hfile himage hscratch hph
  obtain ⟨-, -, hentry⟩ := elfHeader_scratch hscratch'
  have hat : ∀ e < phnum file, ∀ j x, content file (header file e).off.toNat (header file e).filesz.toNat
      (header file e).memsz.toNat j = some x → s'.mem (((header file e).paddr - koffset).toNat + j) = x := by
    intro e he j x hx
    apply hwant e he _ x
    unfold wanted SegmentHeader.pa
    dsimp only
    rw [if_pos (Nat.le_add_right _ _), Nat.add_sub_cancel_left]
    exact hx
  refine ⟨s', ?_, fun e he => ⟨fun j hj => hat e he j _ (if_pos hj), fun j hge hj => hat e he j 0 ?_⟩⟩
  · unfold bootmain
    simp only [hread, Option.bind_eq_bind, Option.bind_some, hoff, hnum, hcount, hloop, Option.pure_def, hentry]
  · unfold content
    rw [if_neg (Nat.not_lt.mpr hge), if_pos hj]

/-- A kernel with two segments in neighbouring pages, which starts at 1 MB: 2 bytes with zeros up to the
end of the page, and 3 bytes with 3 zeros. The sector of these 3 begins where the first segment ends. -/
def tinyKernel : ℕ → BitVec 8 := fun a =>
  match a with
  | 26 => 0x10 | 27 => 0xC0 | 28 => 52 | 44 => 2
  | 57 => 0x10 | 66 => 0x10 | 67 => 0xC0 | 68 => 2 | 73 => 0x10
  | 88 => 4 | 89 => 0x20 | 96 => 4 | 97 => 0x10 | 98 => 0x10 | 99 => 0xC0 | 100 => 3 | 104 => 6
  | 4096 => 0xfa | 4097 => 0xf4
  | 8195 => 0x55 | 8196 => 0x90 | 8197 => 0x91 | 8198 => 0x92
  | _ => 0

theorem header_tinyKernel : header tinyKernel 0 = ⟨0x1000, 0xC0100000, 2, 0x1000⟩ ∧
    header tinyKernel 1 = ⟨0x2004, 0xC0101004, 3, 6⟩ := ⟨rfl, rfl⟩

theorem bootable_tinyKernel : Bootable tinyKernel := by
  obtain ⟨h0, h1⟩ := header_tinyKernel
  have hnum : phnum tinyKernel = 2 := rfl
  have hpa0 : (⟨0x1000, 0xC0100000, 2, 0x1000⟩ : SegmentHeader).pa = 1048576 := rfl
  have hpa1 : (⟨0x2004, 0xC0101004, 3, 6⟩ : SegmentHeader).pa = 1052676 := rfl
  have hpage0 : ∀ p, (header tinyKernel 0).Page p ↔ p = 256 := by
    intro p
    rw [h0]
    unfold SegmentHeader.Page
    rw [hpa0, show (0x1000 : Word).toNat = 4096 from rfl]
    omega
  have hpage1 : ∀ p, (header tinyKernel 1).Page p ↔ p = 257 := by
    intro p
    rw [h1]
    unfold SegmentHeader.Page
    rw [hpa1, show (6 : Word).toNat = 6 from rfl]
    omega
  have hboth : ∀ e < phnum tinyKernel, e = 0 ∨ e = 1 := by
    intro e he
    omega
  refine ⟨by decide, fun e he => ?_, fun e he => ?_, fun e e' hlt he' p hp hp' => ?_, fun e he hp => ?_⟩
  · rcases hboth e he with rfl | rfl
    · rw [h0]
      exact ⟨by decide, by decide, by decide, by rw [hpa0]; decide, by rw [hpa0]; decide⟩
    · rw [h1]
      exact ⟨by decide, by decide, by decide, by rw [hpa1]; decide, by rw [hpa1]; decide⟩
  · rcases hboth e he with rfl | rfl
    · rw [h0]
      decide
    · rw [h1]
      decide
  · obtain rfl : e = 0 := by omega
    obtain rfl : e' = 1 := by omega
    rw [hpage0] at hp
    rw [hpage1] at hp'
    omega
  · rcases hboth e he with rfl | rfl
    · rw [hpage0] at hp
      omega
    · rw [hpage1] at hp
      omega

/-- It is loaded into memory that was not zero. -/
theorem kernel_image_loaded_tiny :
    ∃ s', bootmain (fun a => tinyKernel (a - 512)) ⟨fun _ => 0xff, ⟨0, 0, 0, 0, 0, 0, 0⟩⟩ = some (0x100000, s') ∧
      (s'.mem 1048576 = 0xfa ∧ s'.mem 1048577 = 0xf4 ∧ ∀ j, 2 ≤ j → j < 4096 → s'.mem (1048576 + j) = 0) ∧
      s'.mem 1052676 = 0x90 ∧ s'.mem 1052678 = 0x92 ∧ s'.mem 1052681 = 0 := by
  obtain ⟨s', heq, hmem⟩ := kernel_image_loaded (fun a => tinyKernel (a - 512)) tinyKernel
    (fun a => congrArg tinyKernel (Nat.add_sub_cancel_left ..)) bootable_tinyKernel
    ⟨fun _ => 0xff, ⟨0, 0, 0, 0, 0, 0, 0⟩⟩
  obtain ⟨hbytes0, hzeros0⟩ := hmem 0 (by decide)
  obtain ⟨hbytes1, hzeros1⟩ := hmem 1 (by decide)
  exact ⟨s', heq, ⟨hbytes0 0 (by decide), hbytes0 1 (by decide), hzeros0⟩, hbytes1 0 (by decide), hbytes1 2 (by decide),
    hzeros1 5 (by decide) (by decide)⟩

end Boot
end NanoOS
