import Xv6.UvmSpec

/-!
# What a process sees in memory

`Kernel.residentByte s u va` is the byte at `va` of an address space, if the page of `va` is in
memory and open to the user; `pgt_getpa` decides this, for the kernel as for the hardware.  In a
well-formed address space such a page is one that `kalloc` has handed out, so that the kernel can
read it.
-/

namespace Xv6

open Bytes Wp

/-- The byte at `va`, if its page is in memory. -/
def Kernel.residentByte (s : Kernel) (u : UvmPtr) (va : U64) : Option Byte :=
  match pgtGetpa (s.uvms u).pagetable (pgRoundDown va) s.phys with
  | .ok (pa, _) => if pa = 0 then none else some (s.phys.mem (vpn pa) (va.toNat % 4096))
  | .error _ => none

section

variable {L : UvmPtr → Prop} {ext : ℕ → ℕ∞} {own : ℕ → Owner} {s : Kernel} {a : Maps} {u : UvmPtr}
  {p : Phys} {r : ℕ}

theorem residentByte_of_getpa {va pa : U64} {q : Phys}
    (h : pgtGetpa (s.uvms u).pagetable (pgRoundDown va) s.phys = .ok (pa, q)) (h0 : pa ≠ 0) :
    s.residentByte u va = some (s.phys.mem (vpn pa) (va.toNat % 4096)) := by
  rw [Kernel.residentByte, h]
  exact if_neg h0

theorem residentByte_eq_some {va : U64} {b : Byte} : s.residentByte u va = some b ↔
    ∃ pa q, pgtGetpa (s.uvms u).pagetable (pgRoundDown va) s.phys = .ok (pa, q) ∧ pa ≠ 0 ∧
      s.phys.mem (vpn pa) (va.toNat % 4096) = b := by
  constructor
  · intro h
    rw [Kernel.residentByte] at h
    split at h
    · rename_i pa q hrun
      split_ifs at h with h0
      exact ⟨pa, q, hrun, h0, Option.some.inj h⟩
    · cases h
  · rintro ⟨pa, q, hrun, h0, rfl⟩
    exact residentByte_of_getpa hrun h0

section

variable [Layout]

theorem Rep.pgtGetpa_eq (h : Rep own p a) (hr : a.root r) (va : U64) :
    pgtGetpa (pageAddr r) va p = .ok (a.getpa r va, p) := by
  have hw : wp (pgtGetpa (pageAddr r) va) (fun _ => False)
      (fun pa t => pa = a.getpa r va ∧ t = p) p := pgtGetpa_spec h hr va ⟨rfl, rfl⟩
  obtain ⟨_, _, hrun, rfl, rfl⟩ := hw.exists_ok
  exact hrun

/-- A user page in memory is a page that has been handed out. -/
theorem Good.page_of_getpa (h : Good L ext own s a) {va : U64} (hva : vpn va < vTrapframe)
    (h0 : a.getpa (s.root u) va ≠ 0) :
    ∃ f p, a.getpa (s.root u) va = pageAddr f ∧ a.page f = some p := by
  unfold Maps.getpa at h0 ⊢
  split_ifs at h0 ⊢ with h1 h2
  · exact absurd rfl h0
  · exact absurd rfl h0
  · rw [not_or] at h2
    obtain ⟨p, hp⟩ := h.counted.page_of_valid (show (s.root u, vpn va) ∈ userPlaces from hva) h2.1
    exact ⟨_, p, pte2pa_eq_pageAddr _, hp⟩

/-- The kernel can read a part of a user page. -/
theorem Good.readBytes_eq (h : Good L ext own s a) {va : U64} (hva : vpn va < vTrapframe)
    (h0 : a.getpa (s.root u) va ≠ 0) {o : U64} (ho : o.toNat < 4096) (n : ℕ) :
    readBytes (a.getpa (s.root u) va + o) n s.phys = .ok ((List.range n).map fun k =>
      s.phys.mem (vpn (a.getpa (s.root u) va)) (o.toNat + k), s.phys) := by
  obtain ⟨f, p, hpa, hp⟩ := h.page_of_getpa hva h0
  have hf := (h.rep.allocatable hp).lt
  have hmem := (h.rep.alloc.page_iff.1 hp).2.2
  have hadd : pageAddr f + o = BitVec.ofNat 64 (f * 4096 + o.toNat) := by
    apply BitVec.eq_of_toNat_eq
    rw [BitVec.toNat_add, toNat_pageAddr (by omega), BitVec.toNat_ofNat]
  have hvpn : vpn (pageAddr f) = f := by
    rw [vpn, toNat_pageAddr (by omega)]
    omega
  have hw : wp (readBytes (BitVec.ofNat 64 (f * 4096 + o.toNat)) n) (fun _ => False)
      (fun bs t => bs = (List.range n).map (fun k => p.data (o.toNat + k)) ∧ t = s.phys) s.phys :=
    (readBytes_spec h.rep hp ho n).2 ⟨rfl, rfl⟩
  obtain ⟨_, _, hrun, rfl, rfl⟩ := hw.exists_ok
  rw [hpa, hadd, hrun, hvpn, hmem]

end

end

end Xv6
