/-
# The sector cache

`drivers/ide/cache.c` keeps up to `NR_SEC_CACHE` sectors of the disk in
memory, sector `n` in slot `n % NR_SEC_CACHE`. A slot that was written to goes
back to the disk when another sector needs it (`cache_fetch`) or at the next
`cache_writeback`.

What the disk would hold without the cache is `view`: the contents of the
slot for a cached sector, the disk's for the others. Under `Inv`, every
operation but `write_byte` leaves it as it is, and `write_byte` changes one
byte of it.

Key definitions: `Drive`, `cacheFetch`, `cacheWriteback`, `view`, `Inv`.
Key theorems: `Inv.cacheFetch`, `Inv.readByte`, `Inv.writeByte`,
`Inv.cacheWriteback`.
-/
import Mathlib.Logic.Function.Basic
import Mathlib.Tactic.Common

namespace NanoOS
namespace Ide

/-- `NR_SEC_CACHE`. -/
def nrSecCache : ℕ := 128

/-- The contents of a sector. -/
abbrev Sector := Fin 512 → UInt8

/-- `struct SectorCache`. -/
structure SectorCache where
  sector : ℕ
  used : Bool
  dirty : Bool
  content : Sector

/-- The array `cache`, and the disk. -/
structure Drive where
  cache : ℕ → SectorCache
  disk : ℕ → Sector

namespace Drive

/-- The zero-initialised cache. -/
def zero (disk : ℕ → Sector) : Drive := ⟨fun _ => ⟨0, false, false, fun _ => 0⟩, disk⟩

/-- `disk_do_write`: the 512 bytes go to the sector. -/
def diskDoWrite (buf : Sector) (sector : ℕ) (d : Drive) : Drive :=
  { d with disk := Function.update d.disk sector buf }

/-- An assignment to `cache[i]`. -/
def setSlot (i : ℕ) (c : SectorCache) (d : Drive) : Drive :=
  { d with cache := Function.update d.cache i c }

/-- `cache_init`. -/
def cacheInit (d : Drive) : Drive :=
  (List.range nrSecCache).foldl (fun d i => d.setSlot i { d.cache i with used := false }) d

/-- One round of `cache_writeback`. -/
def writebackSlot (d : Drive) (i : ℕ) : Drive :=
  if (d.cache i).dirty = true then
    (d.diskDoWrite (d.cache i).content (d.cache i).sector).setSlot i { d.cache i with dirty := false }
  else d

/-- `cache_writeback`. -/
def cacheWriteback (d : Drive) : Drive := (List.range nrSecCache).foldl writebackSlot d

/-- `cache_fetch`: afterwards slot `sector % NR_SEC_CACHE` has the sector. The
disk's contents are read (`disk_do_read`) after the old sector is written. -/
def cacheFetch (sector : ℕ) (d : Drive) : Drive :=
  let ptr := d.cache (sector % nrSecCache)
  if ptr.used = true ∧ ptr.sector = sector then d -- cache hit, do nothing
  else
    let d1 := if ptr.used = true ∧ ptr.dirty = true then d.diskDoWrite ptr.content ptr.sector else d
    d1.setSlot (sector % nrSecCache) ⟨sector, true, false, d1.disk sector⟩

end Drive

/-- `offset >> 9`. -/
def sectorOf (offset : ℕ) : ℕ := offset >>> 9

/-- `offset & 511`. -/
def byteOf (offset : ℕ) : Fin 512 := ⟨offset &&& 511, Nat.lt_succ_of_le Nat.and_le_right⟩

namespace Drive

/-- `read_byte`. -/
def readByte (offset : ℕ) (d : Drive) : UInt8 × Drive :=
  let d' := d.cacheFetch (sectorOf offset)
  ((d'.cache (sectorOf offset % nrSecCache)).content (byteOf offset), d')

/-- `write_byte`. -/
def writeByte (offset : ℕ) (data : UInt8) (d : Drive) : Drive :=
  let d' := d.cacheFetch (sectorOf offset)
  let ptr := d'.cache (sectorOf offset % nrSecCache)
  d'.setSlot (sectorOf offset % nrSecCache)
    { ptr with content := Function.update ptr.content (byteOf offset) data, dirty := true }

/-! ### What the disk would hold -/

/-- Slot `i` agrees with the disk. -/
def Synced (d : Drive) (i : ℕ) : Prop :=
  (d.cache i).used = true → d.disk (d.cache i).sector = (d.cache i).content

/-- A slot has a sector that belongs there, dirty slots are in use, and the
others agree with the disk. -/
structure Inv (d : Drive) : Prop where
  tag : ∀ i, (d.cache i).used = true → (d.cache i).sector % nrSecCache = i
  used : ∀ i, (d.cache i).dirty = true → (d.cache i).used = true
  clean : ∀ i, (d.cache i).dirty = false → d.Synced i

/-- Sector `n` is in its slot. -/
def Cached (d : Drive) (n : ℕ) : Prop :=
  (d.cache (n % nrSecCache)).used = true ∧ (d.cache (n % nrSecCache)).sector = n

instance (d : Drive) (n : ℕ) : Decidable (d.Cached n) := inferInstanceAs (Decidable (_ ∧ _))

/-- The contents of sector `n`, wherever they are. -/
def view (d : Drive) (n : ℕ) : Sector :=
  if d.Cached n then (d.cache (n % nrSecCache)).content else d.disk n

variable {d : Drive} {i n : ℕ} {c : SectorCache}

/-! ### Writing a slot back -/

theorem Inv.cached (hI : Inv d) (hu : (d.cache i).used = true) : d.Cached (d.cache i).sector := by
  unfold Cached
  rw [hI.tag i hu]
  exact ⟨hu, rfl⟩

/-- Writing a slot in use to the disk changes no contents, and the slot then
agrees with the disk. -/
theorem Inv.flush (hI : Inv d) (hu : (d.cache i).used = true) :
    let d' := d.diskDoWrite (d.cache i).content (d.cache i).sector
    Inv d' ∧ d'.Synced i ∧ d'.view = d.view := by
  intro d'
  have hsync : d'.Synced i := fun _ => Function.update_self ..
  refine ⟨⟨hI.tag, hI.used, fun j hj huj => ?_⟩, hsync, ?_⟩
  · -- no other slot has the sector
    by_cases hs : (d.cache j).sector = (d.cache i).sector
    · have hij : i = j := by rw [← hI.tag i hu, ← hs, hI.tag j huj]
      subst hij
      exact hsync huj
    · exact (Function.update_of_ne hs ..).trans (hI.clean j hj huj)
  · funext n
    change (if d.Cached n then _ else _) = if d.Cached n then _ else _
    by_cases hn : d.Cached n
    · rw [if_pos hn, if_pos hn]
      rfl
    · have hne : n ≠ (d.cache i).sector := fun e => hn (e ▸ hI.cached hu)
      rw [if_neg hn, if_neg hn]
      exact Function.update_of_ne hne ..

theorem view_of_cached (h : d.Cached n) : d.view n = (d.cache (n % nrSecCache)).content := if_pos h

theorem view_of_not_cached (h : ¬ d.Cached n) : d.view n = d.disk n := if_neg h

theorem view_setSlot_of_ne (hn : n % nrSecCache ≠ i) : (d.setSlot i c).view n = d.view n := by
  have hc : (d.setSlot i c).cache (n % nrSecCache) = d.cache (n % nrSecCache) :=
    Function.update_of_ne hn ..
  have hcached : (d.setSlot i c).Cached n ↔ d.Cached n := by
    unfold Cached
    rw [hc]
  by_cases h : d.Cached n
  · rw [view_of_cached h, view_of_cached (hcached.mpr h), hc]
  · rw [view_of_not_cached h, view_of_not_cached fun h' => h (hcached.mp h')]
    rfl

theorem Inv.setSlot (hI : Inv d) (htag : c.used = true → c.sector % nrSecCache = i)
    (hused : c.dirty = true → c.used = true)
    (hclean : c.dirty = false → c.used = true → d.disk c.sector = c.content) : Inv (d.setSlot i c) := by
  have hcache : ∀ j, (d.setSlot i c).cache j = if j = i then c else d.cache j := by
    intro j
    simp [Drive.setSlot, Function.update_apply]
  refine ⟨fun j => ?_, fun j => ?_, fun j => ?_⟩
  all_goals by_cases hj : j = i
  · subst hj; rw [hcache, if_pos rfl]; exact htag
  · rw [hcache, if_neg hj]; exact hI.tag j
  · subst hj; rw [hcache, if_pos rfl]; exact hused
  · rw [hcache, if_neg hj]; exact hI.used j
  · subst hj; unfold Synced; rw [hcache, if_pos rfl]; exact hclean
  · unfold Synced; rw [hcache, if_neg hj]; exact hI.clean j

/-- A slot that agrees with the disk may be given to a sector as the disk has
it. -/
theorem Inv.load (hI : Inv d) (hsync : d.Synced (n % nrSecCache)) :
    let d' := d.setSlot (n % nrSecCache) ⟨n, true, false, d.disk n⟩
    Inv d' ∧ d'.Cached n ∧ d'.view = d.view := by
  intro d'
  have hslot : d'.cache (n % nrSecCache) = ⟨n, true, false, d.disk n⟩ := Function.update_self ..
  refine ⟨hI.setSlot (fun _ => rfl) (by simp) (fun _ _ => rfl), by simp [Cached, hslot], ?_⟩
  -- the old sector of the slot is read off the disk, where it is the same
  have hold : ∀ m, m % nrSecCache = n % nrSecCache → d.view m = d.disk m := by
    intro m hm
    by_cases h : d.Cached m
    · have hs := hsync (hm ▸ h.1)
      rw [view_of_cached h, hm, ← hs, ← hm, h.2]
    · exact view_of_not_cached h
  funext m
  by_cases hm : m % nrSecCache = n % nrSecCache
  · rw [hold m hm]
    by_cases h : d'.Cached m
    · have hmn : n = m := by
        have := h.2
        rwa [hm, hslot] at this
      subst hmn
      rw [view_of_cached h, hslot]
    · exact view_of_not_cached h
  · exact view_setSlot_of_ne hm

theorem Inv.unmark (hI : Inv d) (hsync : d.Synced i) :
    let d' := d.setSlot i { d.cache i with dirty := false }
    Inv d' ∧ d'.view = d.view := by
  intro d'
  have hslot : d'.cache i = { d.cache i with dirty := false } := Function.update_self ..
  refine ⟨hI.setSlot (hI.tag i) (by simp) (fun _ hu => hsync hu), ?_⟩
  funext n
  by_cases hn : n % nrSecCache = i
  · subst hn
    have hcached : d'.Cached n ↔ d.Cached n := by
      unfold Cached
      rw [hslot]
    by_cases h : d.Cached n
    · rw [view_of_cached h, view_of_cached (hcached.mpr h), hslot]
    · rw [view_of_not_cached h, view_of_not_cached fun h' => h (hcached.mp h')]
      rfl
  · exact view_setSlot_of_ne hn

/-! ### The operations -/

/-- A sector that is not cached is loaded, after the slot has been written back
if need be. -/
theorem cacheFetch_miss (h : ¬ d.Cached n) : d.cacheFetch n =
    let ptr := d.cache (n % nrSecCache)
    let d1 := if ptr.used = true ∧ ptr.dirty = true then d.diskDoWrite ptr.content ptr.sector else d
    d1.setSlot (n % nrSecCache) ⟨n, true, false, d1.disk n⟩ := if_neg h

/-- **`cache_fetch` makes room without losing anything.** -/
theorem Inv.cacheFetch (hI : Inv d) (n : ℕ) :
    Inv (d.cacheFetch n) ∧ (d.cacheFetch n).Cached n ∧ (d.cacheFetch n).view = d.view := by
  by_cases hhit : d.Cached n
  · have heq : d.cacheFetch n = d := if_pos hhit
    rw [heq]
    exact ⟨hI, hhit, rfl⟩
  rw [cacheFetch_miss hhit]
  by_cases hev : (d.cache (n % nrSecCache)).used = true ∧ (d.cache (n % nrSecCache)).dirty = true
  · -- the old sector goes to the disk first
    obtain ⟨h1, hsync, hview⟩ := hI.flush hev.1
    obtain ⟨h2, hc, hview'⟩ := h1.load (n := n) hsync
    simp only [if_pos hev]
    exact ⟨h2, hc, hview'.trans hview⟩
  · have hsync : d.Synced (n % nrSecCache) := by
      cases hd : (d.cache (n % nrSecCache)).dirty with
      | false => exact hI.clean _ hd
      | true => exact absurd ⟨hI.used _ hd, hd⟩ hev
    simp only [if_neg hev]
    exact hI.load hsync

theorem Inv.write (hI : Inv d) (hc : d.Cached n) (x : Sector) :
    let d' := d.setSlot (n % nrSecCache) { d.cache (n % nrSecCache) with content := x, dirty := true }
    Inv d' ∧ d'.view = Function.update d.view n x := by
  intro d'
  have hslot : d'.cache (n % nrSecCache) = { d.cache (n % nrSecCache) with content := x, dirty := true } :=
    Function.update_self ..
  refine ⟨hI.setSlot (hI.tag _) (fun _ => hc.1) (by simp), ?_⟩
  funext m
  by_cases hmn : m = n
  · subst hmn
    have hc' : d'.Cached m := by
      unfold Cached
      rw [hslot]
      exact hc
    rw [Function.update_self, view_of_cached hc', hslot]
  rw [Function.update_of_ne hmn]
  by_cases hm : m % nrSecCache = n % nrSecCache
  · -- the slot is taken by `n`, so `m` is on the disk
    have h : ¬ d.Cached m := fun h => hmn (by rw [← h.2, hm, hc.2])
    have h' : ¬ d'.Cached m := fun h' => hmn (by
      rw [← h'.2, hm, hslot]
      exact hc.2)
    rw [view_of_not_cached h, view_of_not_cached h']
    rfl
  · exact view_setSlot_of_ne hm

theorem Inv.writebackSlot (hI : Inv d) (i : ℕ) :
    Inv (d.writebackSlot i) ∧ (d.writebackSlot i).view = d.view ∧
      ((d.writebackSlot i).cache i).dirty = false ∧
      ∀ j, j ≠ i → (d.writebackSlot i).cache j = d.cache j := by
  unfold Drive.writebackSlot
  by_cases hd : (d.cache i).dirty = true
  · obtain ⟨h1, hsync, hview⟩ := hI.flush (hI.used i hd)
    obtain ⟨h2, hview'⟩ := h1.unmark hsync
    rw [if_pos hd]
    refine ⟨h2, hview'.trans hview, ?_, fun j hj => Function.update_of_ne hj ..⟩
    simp [Drive.setSlot]
  · rw [if_neg hd]
    exact ⟨hI, rfl, by simpa using hd, fun _ _ => rfl⟩

theorem Inv.writebackSlots (hI : Inv d) : ∀ k,
    let d' := (List.range k).foldl Drive.writebackSlot d
    Inv d' ∧ d'.view = d.view ∧ ∀ i < k, (d'.cache i).dirty = false
  | 0 => ⟨hI, rfl, fun _ hi => absurd hi (Nat.not_lt_zero _)⟩
  | k + 1 => by
    obtain ⟨h1, hview, hclean⟩ := hI.writebackSlots k
    obtain ⟨h2, hview', hk, hother⟩ := h1.writebackSlot k
    simp only [List.range_succ, List.foldl_append, List.foldl_cons, List.foldl_nil]
    refine ⟨h2, hview'.trans hview, fun i hi => ?_⟩
    by_cases hik : i = k
    · rw [hik]; exact hk
    · rw [hother i hik]
      exact hclean i (by omega)

theorem Inv.disk_eq_view (hI : Inv d) (hclean : ∀ i < nrSecCache, (d.cache i).dirty = false) :
    d.disk = d.view := by
  funext n
  by_cases h : d.Cached n
  · have hsync := hI.clean _ (hclean (n % nrSecCache) (Nat.mod_lt _ (by decide))) h.1
    rw [view_of_cached h, ← hsync, h.2]
  · exact (view_of_not_cached h).symm

/-- **After `cache_writeback` the disk has everything.** -/
theorem Inv.cacheWriteback (hI : Inv d) :
    Inv d.cacheWriteback ∧ d.cacheWriteback.view = d.view ∧ d.cacheWriteback.disk = d.view ∧
      ∀ i < nrSecCache, (d.cacheWriteback.cache i).dirty = false := by
  unfold Drive.cacheWriteback
  obtain ⟨h1, hview, hclean⟩ := hI.writebackSlots nrSecCache
  exact ⟨h1, hview, (h1.disk_eq_view hclean).trans hview, hclean⟩

-- from here on `Inv.cacheWriteback` says all there is to know of it
attribute [irreducible] Drive.cacheWriteback

theorem cacheInit_zero (disk : ℕ → Sector) : cacheInit (zero disk) = zero disk := by
  have h : ∀ l : List ℕ,
      l.foldl (fun d i => d.setSlot i { d.cache i with used := false }) (zero disk) = zero disk := by
    intro l
    induction l with
    | nil => rfl
    | cons i l ih =>
      have hi : (zero disk).setSlot i { (zero disk).cache i with used := false } = zero disk := by
        simp [setSlot, zero]
      rw [List.foldl_cons, hi, ih]
  exact h _

theorem inv_cacheInit (disk : ℕ → Sector) :
    Inv (cacheInit (zero disk)) ∧ (cacheInit (zero disk)).view = disk := by
  rw [cacheInit_zero]
  refine ⟨⟨?_, ?_, ?_⟩, ?_⟩
  · simp [zero]
  · simp [zero]
  · simp [zero, Synced]
  · funext n
    exact view_of_not_cached fun h => by simpa [zero] using h.1

end Drive

/-! ### Bytes -/

/-- The sectors as one array of bytes. -/
def flat (v : ℕ → Sector) (a : ℕ) : UInt8 := v (a / 512) ⟨a % 512, Nat.mod_lt _ (by decide)⟩

theorem sectorOf_eq (a : ℕ) : sectorOf a = a / 512 := Nat.shiftRight_eq_div_pow a 9

theorem byteOf_eq (a : ℕ) : byteOf a = ⟨a % 512, Nat.mod_lt _ (by decide)⟩ :=
  Fin.ext (Nat.and_two_pow_sub_one_eq_mod a 9)

theorem flat_eq (v : ℕ → Sector) (a : ℕ) : flat v a = v (sectorOf a) (byteOf a) := by
  rw [flat, sectorOf_eq, byteOf_eq]

theorem flat_update (v : ℕ → Sector) (a : ℕ) (x : UInt8) :
    flat (Function.update v (sectorOf a) (Function.update (v (sectorOf a)) (byteOf a) x)) =
      Function.update (flat v) a x := by
  funext b
  by_cases hb : b = a
  · subst hb
    rw [flat_eq, Function.update_self, Function.update_self, Function.update_self]
  rw [Function.update_of_ne hb, flat_eq, flat_eq]
  by_cases hs : sectorOf b = sectorOf a
  · have hne : byteOf b ≠ byteOf a := by
      intro e
      rw [byteOf_eq, byteOf_eq, Fin.mk.injEq] at e
      rw [sectorOf_eq, sectorOf_eq] at hs
      omega
    rw [hs, Function.update_self, Function.update_of_ne hne]
  · rw [Function.update_of_ne hs]

namespace Drive

variable {d : Drive}

/-- **`read_byte` returns the byte**, and changes no contents. -/
theorem Inv.readByte (hI : Inv d) (a : ℕ) :
    (d.readByte a).1 = flat d.view a ∧ Inv (d.readByte a).2 ∧ (d.readByte a).2.view = d.view := by
  obtain ⟨h1, hc, hview⟩ := hI.cacheFetch (sectorOf a)
  refine ⟨?_, h1, hview⟩
  rw [flat_eq, ← hview, view_of_cached hc]
  rfl

/-- **`write_byte` changes one byte.** -/
theorem Inv.writeByte (hI : Inv d) (a : ℕ) (x : UInt8) :
    Inv (d.writeByte a x) ∧ flat (d.writeByte a x).view = Function.update (flat d.view) a x := by
  obtain ⟨h1, hc, hview⟩ := hI.cacheFetch (sectorOf a)
  have hold : ((d.cacheFetch (sectorOf a)).cache (sectorOf a % nrSecCache)).content =
      d.view (sectorOf a) := by
    rw [← hview, view_of_cached hc]
  obtain ⟨h2, hview'⟩ := h1.write hc (Function.update (d.view (sectorOf a)) (byteOf a) x)
  unfold Drive.writeByte
  simp only [hold]
  refine ⟨h2, ?_⟩
  rw [hview', hview, flat_update]

end Drive

end Ide
end NanoOS
