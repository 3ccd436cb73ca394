import Mmix.Proc.Bytes
import Mmix.Proc.Fresh
import Mmix.Lib.Tiling

/-!
# The argument vector on a new stack

`build_user_stack` maps the stack of a new program and copies its arguments there:
the strings below the top, below them the vector of their addresses with two zero
words behind it, and below that the number of arguments. What it has written can be
read back.
-/

namespace Mmix.Proc

open Mm Forest Overlay Tiling List

/-- What is copied of an argument: the string with its terminating zero, cut to the
longest length. -/
def argPiece (arg : List UInt8) : List UInt8 := (arg ++ [0]).take execMaxArgLen

/-- The addresses of lists that lie one behind the other from an address on. -/
def starts : Nat → List (List UInt8) → List Nat
  | _, [] => []
  | start, piece :: pieces => start :: starts (start + piece.length) pieces

/-- The segments that lists occupy from the given addresses on. -/
def pieceSpans (addrs : List Nat) (pieces : List (List UInt8)) : List Span :=
  List.zipWith (fun start piece => ⟨start, start + piece.length⟩) addrs pieces

section Strings

variable {s s' : Vm} {pml4 sp : Word} {args pieces : List (List UInt8)}

theorem argPiece_length (arg : List UInt8) :
    (argPiece arg).length = min (arg.length + 1) execMaxArgLen := by
  rw [argPiece, length_take, length_append, length_singleton, Nat.min_comm]

/-- The bytes that the loop over the strings takes are those of the piece. -/
theorem take_argPiece (arg : List UInt8) :
    (arg ++ [0]).take (min (arg.length + 1) execMaxArgLen) = argPiece arg := by
  rw [Nat.min_comm, argPiece]
  have hlen : (arg ++ [(0 : UInt8)]).length = arg.length + 1 := by simp
  rw [← hlen, ← take_take, take_length]

theorem argPiece_of_lt {arg : List UInt8} (h : arg.length < execMaxArgLen) :
    argPiece arg = arg ++ [0] :=
  take_of_length_le (by rw [length_append, length_singleton]; exact h)

theorem starts_length (start : Nat) (pieces : List (List UInt8)) :
    (starts start pieces).length = pieces.length := by
  induction pieces generalizing start with
  | nil => rfl
  | cons piece pieces ih => simp only [starts, length_cons, ih]

theorem starts_append_singleton (start : Nat) (pieces : List (List UInt8)) (piece : List UInt8) :
    starts start (pieces ++ [piece]) = starts start pieces ++ [start + pieces.flatten.length] := by
  induction pieces generalizing start with
  | nil => rfl
  | cons head pieces ih =>
    simp only [cons_append, starts, ih, flatten_cons, length_append,
      Nat.add_assoc]

/-- The room that the copied strings need. -/
theorem argPieces_length_le (args : List (List UInt8)) :
    (args.map argPiece).flatten.length ≤ args.length * 256 := by
  induction args with
  | nil => exact Nat.zero_le _
  | cons arg args ih =>
    have hfirst : (argPiece arg).length ≤ 256 := by
      rw [argPiece_length]
      exact Nat.min_le_right _ _
    rw [map_cons, flatten_cons, length_append, length_cons, Nat.succ_mul,
      Nat.add_comm]
    exact Nat.add_le_add ih hfirst

/-- The loop over the strings writes them one behind the other up to the address it
started from, and returns where each of them begins. -/
theorem copyStrings_writes {addrs addrs' : List Word} {sp' : Word}
    (hsep : Separated userFormat {frameOf pml4} s.mem) (hhigh : sp.toNat ≤ 2 ^ 47)
    (hlow : args.length * 256 ≤ sp.toNat)
    (hsole : ∀ va : Word, sp.toNat - args.length * 256 ≤ va.toNat → va.toNat < sp.toNat →
      Sole s pml4 va)
    (hrun : copyStrings pml4 args sp addrs s = (some (sp', addrs'), s')) :
    sp'.toNat + (args.reverse.map argPiece).flatten.length = sp.toNat ∧
      Writes pml4 sp'.toNat (args.reverse.map argPiece).flatten s s' ∧
      addrs'.map BitVec.toNat =
        starts sp'.toNat (args.reverse.map argPiece) ++ addrs.map BitVec.toNat := by
  induction args generalizing sp addrs s with
  | nil =>
    obtain ⟨hres, rfl⟩ := Prod.mk.inj hrun
    cases hres
    exact ⟨rfl, Writes.refl _ _ _, rfl⟩
  | cons arg args ih =>
    have hlen : (argPiece arg).length ≤ 256 := by
      rw [argPiece_length]
      exact Nat.min_le_right _ _
    simp only [length_cons, Nat.succ_mul] at hlow hsole
    simp only [copyStrings, take_argPiece] at hrun
    rw [← argPiece_length] at hrun
    have hto : (sp - BitVec.ofNat 64 (argPiece arg).length).toNat =
        sp.toNat - (argPiece arg).length := by
      rw [BitVec.toNat_sub, BitVec.toNat_ofNat]
      omega
    generalize sp - BitVec.ofNat 64 (argPiece arg).length = sp₁ at hto hrun
    have hlow₁ : args.length * 256 ≤ sp₁.toNat := by
      rw [hto]
      exact Nat.le_sub_of_add_le ((Nat.add_le_add_left hlen _).trans hlow)
    cases hc : copyToVa pml4 sp₁ (argPiece arg) s with
    | mk ok s₁ =>
      simp only [hc] at hrun
      cases ok with
      | false => cases hrun
      | true =>
        have hin : ∀ i < (argPiece arg).length, Sole s pml4 (sp₁ + BitVec.ofNat 64 i) := by
          intro i hi
          have hi' := toNat_add_ofNat (show sp₁.toNat + i < 2 ^ 64 by omega)
          exact hsole _ (by omega) (by omega)
        have hone := copyToVa_writes hsep (by omega) hin hc
        obtain ⟨hend, hrest, haddrs⟩ := ih (hone.separated hsep) (by omega) hlow₁
          (fun va hva hva' => hone.sole (userVa_of_lt (by omega))
            (hsole va (by omega) (by omega))) hrun
        rw [reverse_cons, map_append, map_singleton, flatten_append,
          flatten_singleton, starts_append_singleton]
        refine ⟨?_, ?_, ?_⟩
        · rw [length_append]
          omega
        · refine Writes.trans_below ?_ hrest
          rwa [hend]
        · rw [haddrs, map_cons, hend, append_assoc]
          rfl

theorem pieceSpans_within (start : Nat) (pieces : List (List UInt8)) :
    ∀ span ∈ pieceSpans (starts start pieces) pieces,
      span.Within ⟨start, start + pieces.flatten.length⟩ := by
  induction pieces generalizing start with
  | nil => exact fun _ h => absurd h not_mem_nil
  | cons piece pieces ih =>
    intro span hspan
    rw [flatten_cons, length_append, ← Nat.add_assoc]
    rcases mem_cons.mp hspan with rfl | hspan
    · exact ⟨le_rfl, Nat.le_add_right _ _⟩
    · exact ⟨(Nat.le_add_right _ _).trans (ih _ span hspan).1, (ih _ span hspan).2⟩

theorem pieceSpans_apart (start : Nat) (pieces : List (List UInt8)) :
    (pieceSpans (starts start pieces) pieces).Pairwise Span.Apart := by
  induction pieces generalizing start with
  | nil => exact List.Pairwise.nil
  | cons piece pieces ih =>
    refine List.Pairwise.cons (fun span hspan => Or.inl ?_) (ih _)
    exact (pieceSpans_within _ pieces span hspan).1

/-- Each list is shown at its own start. -/
theorem shows_piece {view : Nat → Option UInt8} {start i a : Nat} {piece : List UInt8}
    (h : Shows view start pieces.flatten) (ha : (starts start pieces)[i]? = some a)
    (hpiece : pieces[i]? = some piece) : Shows view a piece := by
  induction pieces generalizing start i with
  | nil => cases hpiece
  | cons head pieces ih =>
    rw [flatten_cons] at h
    cases i with
    | zero =>
      cases ha
      cases hpiece
      exact h.left
    | succ i => exact ih h.right ha hpiece

/-- Each word of a vector is shown at its own place. -/
theorem shows_word {view : Nat → Option UInt8} {start i : Nat} {w : Word} {ws : List Word}
    (h : Shows view start (ws.flatMap wordBytes)) (hw : ws[i]? = some w) :
    Shows view (start + 8 * i) (wordBytes w) := by
  induction ws generalizing start i with
  | nil => cases hw
  | cons head ws ih =>
    rw [flatMap_cons] at h
    cases i with
    | zero =>
      cases hw
      exact h.left
    | succ i =>
      have hrest := h.right
      rw [wordBytes_length] at hrest
      have := ih hrest hw
      rwa [Nat.mul_add, Nat.mul_one, Nat.add_comm (8 * i), ← Nat.add_assoc]

end Strings

/-- A word can be read at an address of user memory. -/
def WordAt (s : Vm) (pml4 : Word) (a : Nat) (w : Word) : Prop :=
  Shows (userByte s pml4) a (wordBytes w)

/-- The lowest address of a new stack. -/
def stackBase : Word := userStackTop - BitVec.ofNat 64 (userStackPages * pageSize)

/-- The segments that the arguments occupy: their number, the vector with its two zero
words, and the strings. -/
def argvSpans (sp : Nat) (addrs : List Word) (argv : List (List UInt8)) : List Span :=
  ⟨sp, sp + 8⟩ :: ⟨sp + 8, sp + 8 + 8 * (argv.length + 2)⟩ ::
    pieceSpans (addrs.map BitVec.toNat) (argv.map (· ++ [0]))

/-- The arguments as a new program finds them from its stack pointer on. -/
structure ArgvShown (s : Vm) (pml4 sp : Word) (argv : List (List UInt8)) (addrs : List Word) :
    Prop where
  argc : WordAt s pml4 sp.toNat (BitVec.ofNat 64 argv.length)
  length_eq : addrs.length = argv.length
  vector : ∀ (i : Nat) (a : Word), addrs[i]? = some a → WordAt s pml4 (sp.toNat + 8 + 8 * i) a
  strings : ∀ (i : Nat) (a : Word) (arg : List UInt8), addrs[i]? = some a → argv[i]? = some arg →
    Shows (userByte s pml4) a.toNat (arg ++ [0])
  null : WordAt s pml4 (sp.toNat + 8 + 8 * argv.length) 0
  envp : WordAt s pml4 (sp.toNat + 8 + 8 * (argv.length + 1)) 0
  apart : (argvSpans sp.toNat addrs argv).Pairwise Span.Apart
  within : ∀ span ∈ argvSpans sp.toNat addrs argv,
    span.Within ⟨stackBase.toNat, userStackTop.toNat⟩
  mapped : ∀ va : Word, stackBase.toNat ≤ va.toNat → va.toNat < userStackTop.toNat →
    (pageAt s pml4 va).isSome

section Stack

variable {s s' s₁ : Vm} {pml4 va : Word} {bytes : List UInt8}

/-- A copy to an unmapped address fails. -/
theorem copyToVa_unmapped (hnone : pageAt s pml4 va = none) (hne : bytes ≠ []) :
    copyToVa pml4 va bytes s = (false, s) := by
  have hz : pmapResolve s pml4 (va &&& ~~~0xFFF) = 0 := by
    apply resolve_of_none
    rwa [pageAt, pagePath_aligned]
  cases bytes with
  | nil => exact absurd rfl hne
  | cons byte bytes =>
    unfold copyToVa
    rw [length_cons, copyToVaLoop, if_neg hne]
    exact if_pos hz

theorem stackBase_toNat : stackBase.toNat = 0x6FFF0000 := rfl

theorem userStackTop_toNat : userStackTop.toNat = 0x70000000 := rfl

theorem mem_stack_iff (hva : va.toNat < 2 ^ 47) (pages : Nat) (hpages : pages ≤ 16) :
    pagePath va ∈ rangePaths stackBase pages ↔
      0x6FFF0000 ≤ va.toNat ∧ va.toNat < 0x6FFF0000 + pages * 4096 := by
  rw [mem_rangePaths (by rw [stackBase_toNat]; omega) hva, stackBase_toNat]
  omega

/-- What a new stack gives a copy: pages of its own. -/
theorem sole_of_mapped {D : Set (List Idx)} {s₀ : Vm} (h : Mapped s₀ (frameOf pml4) D s)
    (hva : UserVa va) (hD : pagePath va ∈ D) : Sole s pml4 va := by
  intro va' hva' f hf hf'
  exact (h.single hD ((leaf_iff_pageAt hva).mpr hf) ((leaf_iff_pageAt hva').mpr hf')).symm

/-- The mapping of a new stack: all of it, or all but the topmost page. -/
theorem mapStack_cases (hsep : Separated userFormat {frameOf pml4} s.mem)
    (hfree : FreeApart {frameOf pml4} s)
    (hempty : ∀ va : Word, stackBase.toNat ≤ va.toNat → va.toNat < userStackTop.toNat →
      pageAt s pml4 va = none)
    (hrun : mapZeroedRange pml4 stackBase (userStackPages * pageSize) s = (true, s₁)) :
    Mapped s (frameOf pml4) (rangePaths stackBase 16) s₁ ∨
      ∀ va : Word, 0x6FFFF000 ≤ va.toNat → va.toNat < 0x70000000 →
        pageAt s₁ pml4 va = none := by
  have hrange : UserRange stackBase 16 :=
    userRange_of_le (by rw [stackBase_toNat]; omega)
  rcases mapFresh_mapped (Mapped.refl hsep hfree) rfl hrange hrun with ⟨-, hm⟩ | ⟨n, hn, hm, -, hl⟩
  · rw [Set.empty_union] at hm
    exact Or.inl hm
  · -- The topmost page is neither new nor mapped before.
    obtain rfl : n = 15 := by
      have := hl rfl
      omega
    rw [Set.empty_union] at hm
    refine Or.inr fun va hlow hhigh => ?_
    have huser : UserVa va := userVa_of_lt (by omega)
    have hout : pagePath va ∉ rangePaths stackBase 15 := by
      rw [mem_stack_iff (by omega) 15 (by decide)]
      omega
    cases hp : pageAt s₁ pml4 va with
    | none => rfl
    | some f =>
      have hold := (hm.old hout).mp ((leaf_iff_pageAt huser).mpr hp)
      have := (leaf_iff_pageAt huser).mp hold
      rw [hempty va (by rw [stackBase_toNat]; omega) (by rw [userStackTop_toNat]; omega)] at this
      cases this

/-- The steps of a successful `build_user_stack`. -/
theorem buildUserStack_some {sp : Word} {argv : List (List UInt8)} (hsp : sp ≠ 0)
    (hrun : buildUserStack pml4 argv s = (sp, s')) :
    ∃ s₁ s₂ s₃ sp₁ addrs sp₂,
      mapZeroedRange pml4 stackBase (userStackPages * pageSize) s = (true, s₁) ∧
      copyStrings pml4 (argv.take execMaxArgs).reverse userStackTop [] s₁ =
        (some (sp₁, addrs), s₂) ∧
      sp₂ = ((sp₁ &&& ~~~0xF) - BitVec.ofNat 64 ((addrs ++ [0, 0]).length * 8)) &&& ~~~0xF ∧
      copyToVa pml4 sp₂ ((addrs ++ [0, 0]).flatMap wordBytes) s₂ = (true, s₃) ∧
      sp = sp₂ - 8 ∧
      copyToVa pml4 sp (wordBytes (BitVec.ofNat 64 (argv.take execMaxArgs).length)) s₃ =
        (true, s') := by
  unfold buildUserStack at hrun
  cases hmap : mapZeroedRange pml4 stackBase (userStackPages * pageSize) s with
  | mk ok s₁ =>
    rw [show userStackTop - BitVec.ofNat 64 (userStackPages * pageSize) = stackBase from rfl,
      hmap] at hrun
    cases ok with
    | false => exact absurd (Prod.mk.inj hrun).1.symm hsp
    | true =>
      cases hstr : copyStrings pml4 (argv.take execMaxArgs).reverse userStackTop [] s₁ with
      | mk out s₂ =>
        simp only [hstr] at hrun
        cases out with
        | none => exact absurd (Prod.mk.inj hrun).1.symm hsp
        | some res =>
          obtain ⟨sp₁, addrs⟩ := res
          dsimp only at hrun
          generalize hsp₂ : ((sp₁ &&& ~~~0xF) -
            BitVec.ofNat 64 ((addrs ++ [0, 0]).length * 8)) &&& ~~~0xF = sp₂ at hrun
          cases hvec : copyToVa pml4 sp₂ ((addrs ++ [0, 0]).flatMap wordBytes) s₂ with
          | mk ok s₃ =>
            simp only [hvec] at hrun
            cases ok with
            | false => exact absurd (Prod.mk.inj hrun).1.symm hsp
            | true =>
              cases hcnt : copyToVa pml4 (sp₂ - 8)
                  (wordBytes (BitVec.ofNat 64 (argv.take execMaxArgs).length)) s₃ with
              | mk ok s₄ =>
                simp only [hcnt] at hrun
                cases ok with
                | false => exact absurd (Prod.mk.inj hrun).1.symm hsp
                | true =>
                  cases hrun
                  exact ⟨s₁, s₂, s₃, sp₁, addrs, sp₂, rfl, hstr, hsp₂.symm,
                    hvec, rfl, hcnt⟩

/-- Without the topmost page no string can be copied. -/
theorem copyStrings_top_unmapped {args : List (List UInt8)} {sp₁ : Word} {addrs : List Word}
    (htop : ∀ va : Word, 0x6FFFF000 ≤ va.toNat → va.toNat < 0x70000000 → pageAt s pml4 va = none)
    (hrun : copyStrings pml4 args userStackTop [] s = (some (sp₁, addrs), s')) :
    sp₁ = userStackTop ∧ addrs = [] ∧ s' = s := by
  cases args with
  | nil =>
    obtain ⟨hres, rfl⟩ := Prod.mk.inj hrun
    cases hres
    exact ⟨rfl, rfl, rfl⟩
  | cons arg args =>
    have hlen : 0 < min (arg.length + 1) execMaxArgLen ∧
        min (arg.length + 1) execMaxArgLen ≤ 256 := by
      unfold execMaxArgLen
      omega
    simp only [copyStrings] at hrun
    generalize min (arg.length + 1) execMaxArgLen = len at hlen hrun
    have hto : (userStackTop - BitVec.ofNat 64 len).toNat = 0x70000000 - len := by
      rw [BitVec.toNat_sub, BitVec.toNat_ofNat, userStackTop_toNat]
      omega
    have hne : (arg ++ [0]).take len ≠ [] := by
      intro hnil
      have := congrArg length hnil
      simp only [length_take, length_append, length_singleton,
        length_nil] at this
      omega
    rw [copyToVa_unmapped (htop _ (by omega) (by omega)) hne] at hrun
    cases hrun

/-- A successful `build_user_stack` has mapped its whole stack. -/
theorem stack_mapped {sp₁ sp₂ : Word} {addrs : List Word} {s₂ s₃ : Vm}
    {args : List (List UInt8)} (hsep : Separated userFormat {frameOf pml4} s.mem)
    (hfree : FreeApart {frameOf pml4} s)
    (hempty : ∀ va : Word, stackBase.toNat ≤ va.toNat → va.toNat < userStackTop.toNat →
      pageAt s pml4 va = none)
    (hmap : mapZeroedRange pml4 stackBase (userStackPages * pageSize) s = (true, s₁))
    (hstr : copyStrings pml4 args userStackTop [] s₁ = (some (sp₁, addrs), s₂))
    (hsp₂ : sp₂ = ((sp₁ &&& ~~~0xF) - BitVec.ofNat 64 ((addrs ++ [0, 0]).length * 8)) &&& ~~~0xF)
    (hvec : copyToVa pml4 sp₂ ((addrs ++ [0, 0]).flatMap wordBytes) s₂ = (true, s₃)) :
    Mapped s (frameOf pml4) (rangePaths stackBase 16) s₁ := by
  rcases mapStack_cases hsep hfree hempty hmap with hm | htop
  · exact hm
  · obtain ⟨rfl, rfl, rfl⟩ := copyStrings_top_unmapped htop hstr
    have hto : sp₂.toNat = 0x6FFFFFF0 := by
      rw [hsp₂]
      rfl
    have hne : (([] : List Word) ++ [0, 0]).flatMap wordBytes ≠ [] := by
      intro hnil
      have := congrArg length hnil
      rw [argvBytes_length] at this
      cases this
    rw [copyToVa_unmapped (htop sp₂ (by omega) (by omega)) hne] at hvec
    cases hvec

/-- Where the vector and the number of arguments go. -/
theorem stack_layout {n len : Nat} {sp₁ sp₂ : Word} (hn : n ≤ 32) (hlen : len ≤ n * 256)
    (hsp₁ : sp₁.toNat + len = 0x70000000)
    (hsp₂ : sp₂ = ((sp₁ &&& ~~~0xF) - BitVec.ofNat 64 ((n + 2) * 8)) &&& ~~~0xF) :
    sp₂.toNat + 8 * (n + 2) ≤ sp₁.toNat ∧ 0x6FFF0008 ≤ sp₂.toNat ∧
      (sp₂ - 8).toNat + 8 = sp₂.toNat := by
  have hsub : ((sp₁ &&& ~~~0xF) - BitVec.ofNat 64 ((n + 2) * 8)).toNat =
      sp₁.toNat / 16 * 16 - (n + 2) * 8 := by
    rw [BitVec.toNat_sub, BitVec.toNat_ofNat, toNat_and_not_15]
    omega
  have hto : sp₂.toNat = (sp₁.toNat / 16 * 16 - (n + 2) * 8) / 16 * 16 := by
    rw [hsp₂, toNat_and_not_15, hsub]
  have hlow : 0x6FFF0008 ≤ sp₂.toNat := by omega
  refine ⟨by omega, hlow, ?_⟩
  rw [BitVec.toNat_sub, show (8 : Word).toNat = 8 from rfl]
  have := sp₂.isLt
  omega

/-- A copy to addresses of the new stack. -/
theorem copyToVa_stack (hsep : Separated userFormat {frameOf pml4} s.mem)
    (hsole : ∀ va : Word, 0x6FFF0000 ≤ va.toNat → va.toNat < 0x70000000 → Sole s pml4 va)
    (hlow : 0x6FFF0000 ≤ va.toNat) (hhigh : va.toNat + bytes.length ≤ 0x70000000)
    (hrun : copyToVa pml4 va bytes s = (true, s')) :
    Writes pml4 va.toNat bytes s s' ∧ Separated userFormat {frameOf pml4} s'.mem ∧
      ∀ va : Word, 0x6FFF0000 ≤ va.toNat → va.toNat < 0x70000000 → Sole s' pml4 va := by
  have hw : Writes pml4 va.toNat bytes s s' := by
    refine copyToVa_writes hsep (by omega) (fun i hi => ?_) hrun
    have hto := toNat_add_ofNat (show va.toNat + i < 2 ^ 64 by omega)
    exact hsole _ (by omega) (by omega)
  exact ⟨hw, hw.separated hsep, fun va' hl hh =>
    hw.sole (userVa_of_lt (by omega)) (hsole va' hl hh)⟩

/-- What a successful `build_user_stack` has done: the stack is mapped, and the strings,
the vector and the number of arguments are written one below the other. -/
structure StackWritten (pml4 sp : Word) (args : List (List UInt8)) (addrs : List Word)
    (strings vector : Nat) (s s₁ s₂ s₃ s' : Vm) : Prop where
  stack : Mapped s (frameOf pml4) (rangePaths stackBase 16) s₁
  strings_written : Writes pml4 strings (args.map argPiece).flatten s₁ s₂
  vector_written : Writes pml4 vector ((addrs ++ [0, 0]).flatMap wordBytes) s₂ s₃
  argc_written : Writes pml4 sp.toNat (wordBytes (BitVec.ofNat 64 args.length)) s₃ s'
  addrs_eq : addrs.map BitVec.toNat = starts strings (args.map argPiece)
  strings_end : strings + (args.map argPiece).flatten.length = 0x70000000
  vector_end : vector + (args.length + 2) * 8 ≤ strings
  argc_end : sp.toNat + 8 = vector
  low : 0x6FFF0000 ≤ sp.toNat

theorem buildUserStack_written {sp : Word} {argv : List (List UInt8)}
    (hsep : Separated userFormat {frameOf pml4} s.mem) (hfree : FreeApart {frameOf pml4} s)
    (hempty : ∀ va : Word, stackBase.toNat ≤ va.toNat → va.toNat < userStackTop.toNat →
      pageAt s pml4 va = none)
    (hrun : buildUserStack pml4 argv s = (sp, s')) (hsp : sp ≠ 0) :
    ∃ addrs strings vector s₁ s₂ s₃,
      StackWritten pml4 sp (argv.take execMaxArgs) addrs strings vector s s₁ s₂ s₃ s' := by
  obtain ⟨s₁, s₂, s₃, sp₁, addrs, sp₂, hmap, hstr, hsp₂, hvec, hspv, hcnt⟩ :=
    buildUserStack_some hsp hrun
  have hm := stack_mapped hsep hfree hempty hmap hstr hsp₂ hvec
  have hargc : (argv.take execMaxArgs).length ≤ 32 := length_take_le _ _
  generalize argv.take execMaxArgs = args at *
  have hsole₁ : ∀ va : Word, 0x6FFF0000 ≤ va.toNat → va.toNat < 0x70000000 →
      Sole s₁ pml4 va := fun va hl hh =>
    sole_of_mapped hm (userVa_of_lt (by omega)) ((mem_stack_iff (by omega) 16 le_rfl).mpr ⟨hl, hh⟩)
  have hsoleStr : ∀ va : Word, userStackTop.toNat - args.reverse.length * 256 ≤ va.toNat →
      va.toNat < userStackTop.toNat → Sole s₁ pml4 va := by
    intro va hl hh
    rw [length_reverse, userStackTop_toNat] at hl
    exact hsole₁ va (by omega) hh
  obtain ⟨hend, hw₁, haddrs⟩ := copyStrings_writes hm.separated
    (by rw [userStackTop_toNat]; omega)
    (by rw [length_reverse, userStackTop_toNat]; omega) hsoleStr hstr
  rw [reverse_reverse] at hend hw₁ haddrs
  rw [userStackTop_toNat] at hend
  rw [map_nil, append_nil] at haddrs
  have hlen : addrs.length = args.length := by
    rw [← length_map BitVec.toNat, haddrs, starts_length, length_map]
  have hveclen : (addrs ++ [0, 0]).length = args.length + 2 := by
    rw [length_append, hlen]
    rfl
  rw [hveclen] at hsp₂
  obtain ⟨hbelow, hlow, hsub⟩ := stack_layout hargc (argPieces_length_le args) hend hsp₂
  rw [← hspv] at hsub
  obtain ⟨hw₂, hsep₃, hsole₃⟩ := copyToVa_stack (hw₁.separated hm.separated)
    (fun va hl hh => hw₁.sole (userVa_of_lt (by omega)) (hsole₁ va hl hh)) (by omega)
    (by rw [argvBytes_length, hveclen]; omega) hvec
  obtain ⟨hw₃, -, -⟩ := copyToVa_stack hsep₃ hsole₃ (by omega)
    (by rw [wordBytes_length]; omega) hcnt
  exact ⟨addrs, sp₁.toNat, sp₂.toNat, s₁, s₂, s₃, hm, hw₁, hw₂, hw₃, haddrs, hend, by omega,
    hsub, by omega⟩

namespace StackWritten

variable {sp : Word} {args : List (List UInt8)} {addrs : List Word} {strings vector : Nat}
  {s₂ s₃ : Vm}

theorem addrs_length (h : StackWritten pml4 sp args addrs strings vector s s₁ s₂ s₃ s') :
    addrs.length = args.length := by
  rw [← length_map BitVec.toNat, h.addrs_eq, starts_length, length_map]

theorem vector_length (h : StackWritten pml4 sp args addrs strings vector s s₁ s₂ s₃ s') :
    ((addrs ++ [0, 0]).flatMap wordBytes).length = (args.length + 2) * 8 := by
  rw [argvBytes_length, length_append, h.addrs_length]
  rfl

theorem shows_strings (h : StackWritten pml4 sp args addrs strings vector s s₁ s₂ s₃ s') :
    Shows (userByte s' pml4) strings (args.map argPiece).flatten := by
  have hvec := h.vector_length
  have hone := wordBytes_length (BitVec.ofNat 64 args.length)
  obtain ⟨-, hw₁, hw₂, hw₃, -, hend, hvend, hcend, -⟩ := h
  exact hw₃.keeps (hw₂.keeps (hw₁.shows (by omega)) (by omega) (by omega)) (by omega) (by omega)

theorem shows_vector (h : StackWritten pml4 sp args addrs strings vector s s₁ s₂ s₃ s') :
    Shows (userByte s' pml4) (sp.toNat + 8) ((addrs ++ [0, 0]).flatMap wordBytes) := by
  have hvec := h.vector_length
  have hone := wordBytes_length (BitVec.ofNat 64 args.length)
  obtain ⟨-, -, hw₂, hw₃, -, hend, hvend, hcend, -⟩ := h
  rw [hcend]
  exact hw₃.keeps (hw₂.shows (by omega)) (by omega) (by omega)

theorem shows_argc (h : StackWritten pml4 sp args addrs strings vector s s₁ s₂ s₃ s') :
    WordAt s' pml4 sp.toNat (BitVec.ofNat 64 args.length) := by
  have hone := wordBytes_length (BitVec.ofNat 64 args.length)
  obtain ⟨-, -, -, hw₃, -, hend, hvend, hcend, -⟩ := h
  exact hw₃.shows (by omega)

/-- The two words behind the addresses are zero. -/
theorem shows_zero (h : StackWritten pml4 sp args addrs strings vector s s₁ s₂ s₃ s') {j : Nat}
    (hj : j < 2) : WordAt s' pml4 (sp.toNat + 8 + 8 * (args.length + j)) 0 := by
  apply shows_word h.shows_vector
  rw [getElem?_append_right (by rw [h.addrs_length]; omega), h.addrs_length,
    Nat.add_sub_cancel_left]
  match j, hj with
  | 0, _ => rfl
  | 1, _ => rfl

theorem sameTree (h : StackWritten pml4 sp args addrs strings vector s s₁ s₂ s₃ s') :
    SameTree pml4 s₁ s' :=
  (h.strings_written.toSameTree.trans h.vector_written.toSameTree).trans h.argc_written.toSameTree

theorem mapped (h : StackWritten pml4 sp args addrs strings vector s s₁ s₂ s₃ s')
    (hlow : stackBase.toNat ≤ va.toNat) (hhigh : va.toNat < userStackTop.toNat) :
    (pageAt s' pml4 va).isSome := by
  rw [stackBase_toNat] at hlow
  rw [userStackTop_toNat] at hhigh
  have huser : UserVa va := userVa_of_lt (by omega)
  obtain ⟨f, hleaf, -⟩ := h.stack.page _ ((mem_stack_iff (by omega) 16 le_rfl).mpr ⟨hlow, hhigh⟩)
  rw [h.sameTree.pageAt huser, (leaf_iff_pageAt huser).mp hleaf]
  rfl

/-- The segments of the strings lie between the vector and the top of the stack. -/
theorem spans_within (h : StackWritten pml4 sp args addrs strings vector s s₁ s₂ s₃ s') :
    ∀ span ∈ pieceSpans (addrs.map BitVec.toNat) (args.map argPiece),
      span.Within ⟨strings, 0x70000000⟩ := by
  rw [h.addrs_eq, ← h.strings_end]
  exact pieceSpans_within strings _

theorem apart (h : StackWritten pml4 sp args addrs strings vector s s₁ s₂ s₃ s')
    (hpieces : args.map argPiece = args.map (· ++ [0])) :
    (argvSpans sp.toNat addrs args).Pairwise Span.Apart := by
  have hwithin := h.spans_within
  have hvend := h.vector_end
  have hcend := h.argc_end
  rw [argvSpans, ← hpieces]
  refine List.Pairwise.cons (fun span hspan => ?_) (List.Pairwise.cons (fun span hspan => ?_) ?_)
  · rcases mem_cons.mp hspan with rfl | hspan
    · exact Or.inl le_rfl
    · have := (hwithin span hspan).1
      exact Or.inl (by dsimp only at this ⊢; omega)
  · have := (hwithin span hspan).1
    exact Or.inl (by dsimp only at this ⊢; omega)
  · rw [h.addrs_eq]
    exact pieceSpans_apart strings _

theorem within (h : StackWritten pml4 sp args addrs strings vector s s₁ s₂ s₃ s')
    (hpieces : args.map argPiece = args.map (· ++ [0])) :
    ∀ span ∈ argvSpans sp.toNat addrs args,
      span.Within ⟨stackBase.toNat, userStackTop.toNat⟩ := by
  have hwithin := h.spans_within
  obtain ⟨-, -, -, -, -, hend, hvend, hcend, hlow⟩ := h
  rw [argvSpans, ← hpieces, stackBase_toNat, userStackTop_toNat]
  intro span hspan
  rcases mem_cons.mp hspan with rfl | hspan
  · exact ⟨by dsimp only; omega, by dsimp only; omega⟩
  · rcases mem_cons.mp hspan with rfl | hspan
    · exact ⟨by dsimp only; omega, by dsimp only; omega⟩
    · have := (hwithin span hspan).1
      exact ⟨by dsimp only at this ⊢; omega, (hwithin span hspan).2⟩

end StackWritten

/-- The arguments survive `exec`: if `build_user_stack` returns a stack pointer, the
new program finds its arguments there. -/
theorem build_user_stack_keeps_argv {sp : Word} {argv : List (List UInt8)}
    (hsep : Separated userFormat {frameOf pml4} s.mem) (hfree : FreeApart {frameOf pml4} s)
    (hempty : ∀ va : Word, stackBase.toNat ≤ va.toNat → va.toNat < userStackTop.toNat →
      pageAt s pml4 va = none)
    (hargc : argv.length ≤ execMaxArgs) (hargs : ∀ arg ∈ argv, arg.length < execMaxArgLen)
    (hrun : buildUserStack pml4 argv s = (sp, s')) (hsp : sp ≠ 0) :
    ∃ addrs, ArgvShown s' pml4 sp argv addrs := by
  obtain ⟨addrs, strings, vector, s₁, s₂, s₃, h⟩ :=
    buildUserStack_written hsep hfree hempty hrun hsp
  rw [List.take_of_length_le hargc] at h
  have hpieces : argv.map argPiece = argv.map (· ++ [0]) :=
    List.map_congr_left fun arg harg => argPiece_of_lt (hargs arg harg)
  have hnull := h.shows_zero (show 0 < 2 by decide)
  have henvp := h.shows_zero (show 1 < 2 by decide)
  rw [Nat.add_zero] at hnull
  exact ⟨addrs,
    { argc := h.shows_argc
      length_eq := h.addrs_length
      vector := by
        intro i a ha
        have hi := (List.getElem?_eq_some_iff.mp ha).1
        exact shows_word h.shows_vector ((List.getElem?_append_left hi).trans ha)
      strings := by
        intro i a arg ha harg
        have hstart : (starts strings (argv.map argPiece))[i]? = some a.toNat := by
          rw [← h.addrs_eq, List.getElem?_map, ha]
          rfl
        refine shows_piece h.shows_strings hstart ?_
        rw [hpieces, List.getElem?_map, harg]
        rfl
      null := hnull
      envp := henvp
      apart := h.apart hpieces
      within := h.within hpieces
      mapped := fun va => h.mapped }⟩

/-- An address space with its root in frame 1 and nothing mapped. -/
def bareSpace (total : Nat) : Vm where
  pmm := { bitmap := fun f => decide (f < 2), totalPages := total, freePages := total - 2 }
  mem := fun _ _ => 0
  refs := fun _ => 0
  refsPages := total
  cr3 := 0x1000
  kernelPml4 := 0x1000
  usable := fun _ => true

theorem bareSpace_node {total r f : Nat} {p : List Idx}
    (h : node child (bareSpace total).mem r p = some f) : p = [] ∧ f = r := by
  cases p with
  | nil => exact ⟨rfl, (Option.some.inj h).symm⟩
  | cons i p =>
    rw [node_cons, show (bareSpace total).mem r i = 0 from rfl, child_zero] at h
    cases h

theorem bareSpace_separated (total : Nat) :
    Separated userFormat {frameOf 0x1000} (bareSpace total).mem where
  table_unique := by
    intro r p r' p' f h h'
    obtain ⟨rfl, rfl⟩ := bareSpace_node (reach_node h)
    obtain ⟨rfl, rfl⟩ := bareSpace_node (reach_node h')
    exact ⟨rfl, rfl⟩
  leaf_ne_table := by
    intro r p r' p' f _ h
    obtain ⟨rfl, -⟩ := bareSpace_node (reach_node h.reach)
    cases h.length_eq

theorem bareSpace_freeApart {total : Nat} (htotal : total ≤ 2 ^ 40) :
    FreeApart {frameOf 0x1000} (bareSpace total) := by
  refine ⟨htotal, fun page hpage r p hr => ?_⟩
  obtain rfl : r = 1 := hr.mem_roots
  obtain ⟨-, rfl⟩ := bareSpace_node (reach_node hr)
  have hused : (bareSpace total).pmm.bitmap 1 = true := rfl
  exact absurd (hused.symm.trans hpage.2) (by decide)

theorem build_user_stack_keeps_argv_echo :
    ∃ addrs, ArgvShown (buildUserStack 0x1000 [[101, 99, 104, 111], [104, 105]] (bareSpace 40)).2
      0x1000 (buildUserStack 0x1000 [[101, 99, 104, 111], [104, 105]] (bareSpace 40)).1
      [[101, 99, 104, 111], [104, 105]] addrs := by
  refine build_user_stack_keeps_argv (bareSpace_separated 40) (bareSpace_freeApart (by decide))
    (fun va _ _ => ?_) (by decide) (by decide) Prod.mk.eta.symm (by decide +kernel)
  cases hp : pageAt (bareSpace 40) 0x1000 va with
  | none => rfl
  | some f => cases (bareSpace_node hp).1

end Stack

end Mmix.Proc
