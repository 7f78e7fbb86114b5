import Nachos.Machine.Machine

/-!
# Machine — Memory

What an access to user memory changes.  `translate_ok` reads a successful `Translate`: the frame is
that of the entry of the virtual page, and an aligned access of 1, 2 or 4 bytes stays inside it.
So every access, and with it each of the copy routines, keeps the frame condition
(`keeps_readMem`, `keeps_writeMem`, `keeps_user2System`, `keeps_system2User`).
-/

namespace Nachos.Machine
open Exec

/-- The offset of an aligned access leaves room for it in the page. -/
theorem offset_add_size_le {virtAddr : Word} {size : Nat} (hs : size = 1 ∨ size = 2 ∨ size = 4)
    (ha : ¬ ((size = 4 ∧ virtAddr &&& 3 ≠ 0) ∨ (size = 2 ∧ virtAddr &&& 1 ≠ 0))) :
    virtAddr.toNat % PageSize + size ≤ PageSize := by
  have hlt := virtAddr.isLt
  simp only [not_or, not_and, ne_eq, not_not] at ha
  unfold PageSize
  rcases hs with rfl | rfl | rfl
  · omega
  · have h := congrArg BitVec.toNat (ha.2 rfl)
    simp only [BitVec.toNat_and] at h
    have : virtAddr.toNat % 2 = 0 := by
      rw [← Nat.and_one_is_mod]
      simpa using h
    omega
  · have h := congrArg BitVec.toNat (ha.1 rfl)
    simp only [BitVec.toNat_and] at h
    have : virtAddr.toNat % 4 = 0 := by
      have e : virtAddr.toNat &&& (2 ^ 2 - 1) = virtAddr.toNat % 2 ^ 2 :=
        Nat.and_two_pow_sub_one_eq_mod _ 2
      rw [← show (2 : Nat) ^ 2 = 4 from rfl, ← e]
      simpa using h
    omega

/-- The ways a `Translate` ends: an exception with the machine unchanged, an abort, or an address
in the frame of the entry of the virtual page, whose use and dirty bits are then set. -/
theorem translate_cases (virtAddr : Word) (size : Nat) (writing : Bool) (m : Machine) :
    (∃ e, translate virtAddr size writing m = .ok (.error e) m) ∨
    translate virtAddr size writing m = .aborted ∨
    ∃ pageTable entry, m.pageTable = some pageTable ∧
      pageTable[virtAddr.toNat / PageSize]? = some entry ∧
      ¬ ((size = 4 ∧ virtAddr &&& 3 ≠ 0) ∨ (size = 2 ∧ virtAddr &&& 1 ≠ 0)) ∧
      translate virtAddr size writing m =
        .ok (.ok (entry.physicalPage * PageSize + virtAddr.toNat % PageSize))
          { m with pageTable := some (pageTable.set (virtAddr.toNat / PageSize)
              { entry with use := true, dirty := entry.dirty || writing }) } := by
  unfold translate
  split
  · exact .inl ⟨_, rfl⟩
  rename_i ha
  split
  · exact .inr (.inl rfl)
  rename_i pageTable hp
  dsimp only
  split
  · exact .inl ⟨_, rfl⟩
  split
  · exact .inr (.inl rfl)
  rename_i entry he
  split
  · exact .inl ⟨_, rfl⟩
  split
  · exact .inl ⟨_, rfl⟩
  split
  · exact .inl ⟨_, rfl⟩
  split
  · exact .inr (.inr ⟨pageTable, entry, hp, he, ha, rfl⟩)
  · exact .inr (.inl rfl)

/-- Setting the use and dirty bits of an entry does not change the mapping. -/
theorem map_mapping_set {l : List TranslationEntry} {i : Nat} {e : TranslationEntry}
    (he : l[i]? = some e) (u d : Bool) :
    (l.set i { e with use := u, dirty := d }).map TranslationEntry.mapping =
      l.map TranslationEntry.mapping := by
  apply List.ext_getElem?
  intro j
  rw [List.getElem?_map, List.getElem?_map, List.getElem?_set]
  split
  · subst i
    split
    · rw [he]; rfl
    · rename_i h
      rw [List.getElem?_eq_none (by omega)] at he
      cases he
  · rfl

theorem keeps_translate (virtAddr : Word) (size : Nat) (writing : Bool) :
    Keeps (translate virtAddr size writing) := by
  intro m
  rcases translate_cases virtAddr size writing m with
    ⟨e, h⟩ | h | ⟨pageTable, entry, hp, he, -, h⟩
  · rw [h]; exact Frame.refl m
  · rw [h]; trivial
  · rw [h]
    refine ⟨rfl, ?_, fun _ _ => rfl⟩
    simp only [hp, Option.map_some, map_mapping_set he]

theorem storeLE_outside {mem : Nat → Byte} {a n value x : Nat} (h : x < a ∨ a + n ≤ x) :
    storeLE mem a n value x = mem x := by
  induction n generalizing mem a value with
  | zero => rfl
  | succ n ih =>
      rw [storeLE, ih (by omega), Function.update_of_ne (by omega)]

theorem keeps_readMem (addr : Word) (size : Nat) : Keeps (readMem addr size) := by
  refine keeps_bind (keeps_translate addr size false) fun r => ?_
  cases r with
  | error e => exact keeps_raiseException _ _
  | ok pa =>
      refine keeps_bind keeps_get fun m => ?_
      split
      · exact keeps_pure _
      · exact keeps_pure _
      · exact keeps_pure _
      · exact keeps_abort

/-- `WriteMem` writes inside the frame of the entry it translates with. -/
theorem keeps_writeMem (addr : Word) (size : Nat) (value : Word) :
    Keeps (writeMem addr size value) := by
  intro m
  have hb : writeMem addr size value m = Exec.bind (translate addr size true) _ m := rfl
  rw [hb, Exec.bind]
  rcases translate_cases addr size true m with ⟨e, h⟩ | h | ⟨pageTable, entry, hp, he, ha, h⟩
  · rw [h]; exact keeps_raiseException (α := Unit) e addr m
  · rw [h]; trivial
  · rw [h]
    have hk := (keeps_translate addr size true).ok h
    dsimp only
    by_cases hs : size = 1 ∨ size = 2 ∨ size = 4
    · rw [if_pos hs]
      refine hk.trans ⟨rfl, rfl, fun x hx => ?_⟩
      have hoff := offset_add_size_le hs ha
      by_contra hne
      -- a changed byte lies in the frame of `entry`
      have hin : entry.physicalPage * PageSize + addr.toNat % PageSize ≤ x ∧
          x < entry.physicalPage * PageSize + addr.toNat % PageSize + size := by
        by_contra hout
        exact hne (storeLE_outside (by omega))
      have hdiv : x / PageSize = entry.physicalPage := by
        rw [Nat.div_eq_iff (by decide)]
        unfold PageSize at hin hoff ⊢
        omega
      exact hx (hk.maps.mpr ⟨pageTable, hp, entry, List.mem_of_getElem? he, hdiv.symm⟩)
    · rw [if_neg hs]; trivial

theorem keeps_user2System (virtAddr : Word) (limit : Nat) :
    Keeps (user2System virtAddr limit) := by
  have loop : ∀ limit i, Keeps (user2SystemLoop virtAddr limit i) := by
    intro limit
    induction limit with
    | zero => intro i; exact keeps_pure _
    | succ n ih =>
        intro i
        refine keeps_bind (keeps_readMem _ _) fun c => ?_
        exact keeps_ite (keeps_pure _) (keeps_bind (ih _) fun _ => keeps_pure _)
  exact keeps_bind (loop _ _) fun _ => keeps_pure _

theorem keeps_system2User (virtAddr : Word) (len : Int) (buffer : Nat → Byte) :
    Keeps (system2User virtAddr len buffer) := by
  have loop : ∀ rest i, Keeps (system2UserLoop virtAddr buffer rest i) := by
    intro rest
    induction rest with
    | zero =>
        intro i
        unfold system2UserLoop
        exact keeps_bind (keeps_writeMem _ _ _) fun _ => keeps_pure _
    | succ n ih =>
        intro i
        unfold system2UserLoop
        exact keeps_bind (keeps_writeMem _ _ _) fun _ => keeps_ite (keeps_pure _) (ih _)
  exact keeps_ite (keeps_pure _)
    (keeps_ite (keeps_pure _) (keeps_bind (loop _ _) fun _ => keeps_pure _))

end Nachos.Machine
