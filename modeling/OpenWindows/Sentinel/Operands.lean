import OpenWindows.Sentinel.Execute

/-!
# The operands of a directive

What a directive reads of the image through `operand_data`, and the regions its
operands name.  The handlers compare the end of a region as a `uint32_t`, so a
region whose exact end is `2 ^ 32` or more may pass.
-/

namespace Sentinel

open Memory Bytes

/-! ## What is read -/

/-- The words of `operand_data` that the handler of an opcode reads, once there are as
many. -/
def handlerWords : Nat → Nat
  | 0x01 => 3
  | 0x02 => 2
  | 0x03 => 3
  | 0x04 => 2
  | 0x05 => 4
  | 0x06 => 2
  | 0x07 => 3
  | 0x08 => 1
  | 0x0A => 3
  | 0x0B => 1
  | 0x0C => 2
  | 0x0D => 3
  | 0x0E => 3
  | _ => 0

/-- The operands lie in the image, as `dc_execute_directive` checks it. -/
def DcContext.hasOperands (ctx : DcContext) (dir : DirectiveHeader) : Prop :=
  ¬ (0 < dir.operandSize ∧ ctx.imageSize ≤ dir.operandOffset) ∧
    ¬ (0 < dir.operandSize ∧ ctx.imageSize - dir.operandOffset < dir.operandSize)

instance (ctx : DcContext) (dir : DirectiveHeader) : Decidable (ctx.hasOperands dir) :=
  inferInstanceAs (Decidable (_ ∧ _))

/-- The bytes of the image that `dc_execute_directive` reads as operands. -/
def operandReads (ctx : DcContext) (dir : DirectiveHeader) : List Nat :=
  if ctx.hasOperands dir ∧ 4 * handlerWords dir.opcode ≤ dir.operandSize then
    (List.range (4 * handlerWords dir.opcode)).map (dir.operandOffset + ·)
  else []

variable {ctx : DcContext} {dir : DirectiveHeader} {image : Mem}

theorem operandReads_lt {a : Nat} (h : a ∈ operandReads ctx dir) : a < ctx.imageSize := by
  unfold operandReads at h
  split at h
  next hread =>
    obtain ⟨i, hi, rfl⟩ := List.mem_map.mp h
    have hi := List.mem_range.mp hi
    obtain ⟨⟨hstart, hend⟩, hsize⟩ := hread
    omega
  · cases h

def DcContext.withImage (ctx : DcContext) (image : Mem) : DcContext := { ctx with image := image }

@[simp] theorem withImage_imageSize : (ctx.withImage image).imageSize = ctx.imageSize := rfl

@[simp] theorem withImage_header : (ctx.withImage image).header = ctx.header := rfl

@[simp] theorem withImage_currentDirective :
    (ctx.withImage image).currentDirective = ctx.currentDirective := rfl

@[simp] theorem verbose_withImage (ctx : DcContext) (image : Mem) (type : LogType)
    (bancode index : Nat) (message : String) (detail : Nat) : (ctx.withImage image).verbose type bancode index message detail =
      (ctx.verbose type bancode index message detail).withImage image := by
  unfold DcContext.verbose
  split
  next h =>
    rw [if_pos (show ctx.config.verboseLogging = true from h)]
    rfl
  next h => rw [if_neg (show ¬ ctx.config.verboseLogging = true from h)]

def SameWords (ctx : DcContext) (image : Mem) (dir : DirectiveHeader) (words : Nat) : Prop :=
  ∀ k < words, operand (ctx.withImage image) dir k = operand ctx dir k

def WordsOnly (dir : DirectiveHeader) (words : Nat)
    (handler : DcContext → DcContext × DirectiveStatus) : Prop :=
  ∀ ctx image, (4 * words ≤ dir.operandSize → SameWords ctx image dir words) →
    handler (ctx.withImage image) = ((handler ctx).1.withImage image, (handler ctx).2)

theorem wordsOnly_handle {words : Nat} {rejected : DcContext → Bool}
    {bancode detail : DcContext → Nat} (type : LogType) (message : String)
    (h : ∀ ctx image, SameWords ctx image dir words →
      rejected (ctx.withImage image) = rejected ctx ∧ bancode (ctx.withImage image) = bancode ctx ∧
        detail (ctx.withImage image) = detail ctx) :
    WordsOnly dir words fun ctx =>
      handle ctx dir (4 * words) (rejected ctx) type (bancode ctx) message (detail ctx) := by
  intro ctx image hsame
  dsimp only
  unfold handle
  by_cases hshort : dir.operandSize < 4 * words
  · rw [if_pos hshort, if_pos hshort]
  · obtain ⟨hrejected, hbancode, hdetail⟩ := h ctx image (hsame (Nat.le_of_not_lt hshort))
    rw [if_neg hshort, if_neg hshort, hrejected, hbancode, hdetail]
    split
    · rfl
    · rw [withImage_currentDirective, verbose_withImage]

theorem wordsOnly_logState (dir : DirectiveHeader) :
    WordsOnly dir 3 fun ctx => dcHandleLogState ctx dir := by
  intro ctx image hsame
  dsimp only
  unfold dcHandleLogState
  by_cases hshort : dir.operandSize < 12
  · rw [if_pos hshort, if_pos hshort]
  · have h := hsame (Nat.le_of_not_lt hshort)
    rw [if_neg hshort, if_neg hshort, h 0 (by decide), h 1 (by decide)]
    show (if outside ctx _ _ = true then _ else _) = _
    split
    · rfl
    · split
      · rfl
      · rw [withImage_header, withImage_currentDirective, verbose_withImage]

theorem wordsOnly_relocate (dir : DirectiveHeader) :
    WordsOnly dir 3 fun ctx => dcHandleRelocate ctx dir := by
  intro ctx image hsame
  dsimp only
  unfold dcHandleRelocate
  by_cases hshort : dir.operandSize < 12
  · rw [if_pos hshort, if_pos hshort]
  · have h := hsame (Nat.le_of_not_lt hshort)
    rw [if_neg hshort, if_neg hshort, h 2 (by decide)]
    split
    · rfl
    · rw [withImage_header, withImage_currentDirective, verbose_withImage]

theorem wordsOnly_dispatch (dir : DirectiveHeader) :
    WordsOnly dir (handlerWords dir.opcode) fun ctx => dispatch ctx dir := by
  unfold dispatch
  generalize dir.opcode = opcode
  split
  · exact fun _ _ _ => rfl
  · exact wordsOnly_handle _ _ fun ctx image hs => by simp [hs 0 (by decide), hs 2 (by decide)]
  · exact wordsOnly_handle _ _ fun ctx image hs => by simp [hs 0 (by decide)]
  · exact wordsOnly_logState dir
  · exact wordsOnly_handle _ _ fun ctx image hs => by simp [hs 0 (by decide)]
  · exact wordsOnly_handle _ _ fun ctx image hs => by
      simp [outside, hs 0 (by decide), hs 1 (by decide), hs 2 (by decide), hs 3 (by decide)]
  · exact wordsOnly_handle _ _ fun ctx image hs => by simp [hs 1 (by decide)]
  · exact wordsOnly_handle _ _ fun ctx image hs => by
      simp [outside, hs 0 (by decide), hs 1 (by decide), hs 2 (by decide)]
  · exact wordsOnly_handle _ _ fun ctx image hs => by simp [hs 0 (by decide)]
  · exact wordsOnly_handle _ _ fun ctx image hs => ⟨rfl, rfl, rfl⟩
  · exact wordsOnly_relocate dir
  · exact wordsOnly_handle _ _ fun ctx image hs => by simp [hs 0 (by decide)]
  · exact wordsOnly_handle _ _ fun ctx image hs => by simp [hs 0 (by decide)]
  · exact wordsOnly_handle _ _ fun ctx image hs => by
      simp [outside, hs 0 (by decide), hs 1 (by decide), hs 2 (by decide)]
  · exact wordsOnly_handle _ _ fun ctx image hs => by
      simp [outside, hs 0 (by decide), hs 1 (by decide), hs 2 (by decide)]
  · exact fun _ _ _ => rfl

theorem execute_withImage (h : ∀ a ∈ operandReads ctx dir, image a = ctx.image a) :
    dcExecuteDirective (ctx.withImage image) dir =
      ((dcExecuteDirective ctx dir).1.withImage image, (dcExecuteDirective ctx dir).2) := by
  unfold dcExecuteDirective
  rw [withImage_imageSize]
  split
  · rfl
  next hstart =>
    split
    · rfl
    next hend =>
      have hwords : 4 * handlerWords dir.opcode ≤ dir.operandSize →
          SameWords ctx image dir (handlerWords dir.opcode) := by
        intro hsize k hk
        have hreads : operandReads ctx dir = _ := if_pos ⟨⟨hstart, hend⟩, hsize⟩
        have hsame : SameOn (fun a => a ∈ operandReads ctx dir) ctx.image image :=
          fun a ha => h a ha
        refine hsame.loadNum_eq fun x hlo hhi => ?_
        rw [hreads]
        exact List.mem_map.mpr ⟨x - dir.operandOffset, List.mem_range.mpr (by omega), by omega⟩
      have hdispatch : dispatch (ctx.withImage image) dir =
          ((dispatch ctx dir).1.withImage image, (dispatch ctx dir).2) :=
        wordsOnly_dispatch dir ctx image hwords
      rw [hdispatch]
      obtain ⟨c, status⟩ := dispatch ctx dir
      dsimp only
      split
      · rfl
      next => exact congrArg (·, status) (verbose_withImage { c with
        totalDirectivesExecuted := (c.totalDirectivesExecuted + 1) % 2 ^ 32
        totalDirectivesFailed := (c.totalDirectivesFailed + 1) % 2 ^ 32 } image ..)

/-! ## The regions -/

/-- The pairs of an offset and a size among the operands. -/
def operandRegions (ctx : DcContext) (dir : DirectiveHeader) : List (Nat × Nat) :=
  match dir.opcode with
  | 0x03 => [(operand ctx dir 0, operand ctx dir 1)]
  | 0x05 => [(operand ctx dir 0, operand ctx dir 1), (operand ctx dir 2, operand ctx dir 3)]
  | 0x07 => [(operand ctx dir 1, operand ctx dir 2)]
  | 0x0D => [(operand ctx dir 1, operand ctx dir 2)]
  | 0x0E => [(operand ctx dir 1, operand ctx dir 2)]
  | _ => []

/-- What the handlers with regions ask of their operands besides. -/
def otherwiseFit (ctx : DcContext) (dir : DirectiveHeader) : Prop :=
  match dir.opcode with
  | 0x05 => operand ctx dir 1 ≠ 0 ∧ operand ctx dir 3 ≠ 0
  | 0x0D => operand ctx dir 0 < ctx.imageSize
  | 0x0E => operand ctx dir 0 < ctx.imageSize
  | _ => True

/-- Where everything else about the operands is in order and the end of every region is
inside the image as a `uint32_t`, no end is cut off. -/
def EndsExact (ctx : DcContext) (dir : DirectiveHeader) : Prop :=
  ctx.hasOperands dir → 4 * handlerWords dir.opcode ≤ dir.operandSize → otherwiseFit ctx dir →
    (∀ r ∈ operandRegions ctx dir, (r.1 + r.2) % 2 ^ 32 ≤ ctx.imageSize) →
      ∀ r ∈ operandRegions ctx dir, r.1 + r.2 < 2 ^ 32

/-- A directive reads its operands and regions inside the image. -/
structure OperandsInImage (ctx : DcContext) (dir : DirectiveHeader) : Prop where
  reads : ∀ a ∈ operandReads ctx dir, a < ctx.imageSize
  only : ∀ image, (∀ a ∈ operandReads ctx dir, image a = ctx.image a) →
    dcExecuteDirective (ctx.withImage image) dir =
      ((dcExecuteDirective ctx dir).1.withImage image, (dcExecuteDirective ctx dir).2)
  regions : (dcExecuteDirective ctx dir).2 = .ok →
    ∀ r ∈ operandRegions ctx dir, r.1 + r.2 ≤ ctx.imageSize

theorem handle_ok_iff {size : Nat} {rejected : Bool} {type : LogType} {bancode : Nat}
    {message : String} {detail : Nat} :
    (handle ctx dir size rejected type bancode message detail).2 = .ok ↔
      size ≤ dir.operandSize ∧ rejected = false := by
  unfold handle
  split
  next h => exact ⟨nofun, fun hok => absurd h (Nat.not_lt_of_le hok.1)⟩
  next h =>
    split
    next hr => exact ⟨nofun, fun hok => absurd (hr.symm.trans hok.2) (by decide)⟩
    next hr => exact ⟨fun _ => ⟨Nat.le_of_not_lt h, Bool.eq_false_of_not_eq_true hr⟩, fun _ => rfl⟩

theorem outside_eq_false {offset size : Nat} :
    outside ctx offset size = false ↔ (offset + size) % 2 ^ 32 ≤ ctx.imageSize := by
  rw [outside, decide_eq_false_iff_not, Nat.not_lt]

theorem dispatch_ok_iff (h : operandRegions ctx dir ≠ []) :
    (dispatch ctx dir).2 = .ok ↔
      4 * handlerWords dir.opcode ≤ dir.operandSize ∧ otherwiseFit ctx dir ∧
        ∀ r ∈ operandRegions ctx dir, (r.1 + r.2) % 2 ^ 32 ≤ ctx.imageSize := by
  unfold operandRegions at h ⊢
  unfold otherwiseFit dispatch handlerWords
  split at h
  next hop =>
    rw [hop]
    simp only [dcHandleLogState, List.forall_mem_singleton, ← outside_eq_false, true_and]
    split
    · exact ⟨nofun, fun hok => by omega⟩
    next hsize =>
      split
      next hout => exact ⟨nofun, fun hok => absurd (hout.symm.trans hok.2) (by decide)⟩
      next hin =>
        have hin := Bool.eq_false_of_not_eq_true hin
        split <;> exact ⟨fun _ => ⟨Nat.le_of_not_lt hsize, hin⟩, fun _ => rfl⟩
  next hop =>
    rw [hop]
    simp only [dcHandleRebuildFvip, handle_ok_iff, List.forall_mem_cons, Bool.or_eq_false_iff,
      beq_eq_false_iff_ne, outside_eq_false]
    simp
    tauto
  next hop =>
    rw [hop]
    simp only [dcHandleCheckpoint, handle_ok_iff, List.forall_mem_singleton, outside_eq_false,
      true_and]
  next hop =>
    rw [hop]
    simp only [dcHandleInvokeDriver, handle_ok_iff, List.forall_mem_singleton,
      Bool.or_eq_false_iff, decide_eq_false_iff_not, Nat.not_le, outside_eq_false]
  next hop =>
    rw [hop]
    simp only [dcHandleInvokeDll, handle_ok_iff, List.forall_mem_singleton,
      Bool.or_eq_false_iff, decide_eq_false_iff_not, Nat.not_le, outside_eq_false]
  · exact absurd rfl h

theorem execute_ok_iff : (dcExecuteDirective ctx dir).2 = .ok ↔
    ctx.hasOperands dir ∧ (dispatch ctx dir).2 = .ok := by
  unfold dcExecuteDirective DcContext.hasOperands
  split
  next h => exact ⟨nofun, fun hok => absurd h hok.1.1⟩
  next h =>
    split
    next h' => exact ⟨nofun, fun hok => absurd h' hok.1.2⟩
    next h' =>
      dsimp only
      split
      · exact ⟨fun hok => ⟨⟨h, h'⟩, hok⟩, fun hok => hok.2⟩
      next hfail => exact ⟨fun hok => absurd (.inl hok) hfail, fun hok => absurd (.inl hok.2) hfail⟩

theorem Structural.size_lt {imageSize : Nat} (hs : Structural image imageSize) :
    imageSize < 2 ^ 32 := by
  have hheader := hs.1
  have hlt := leNum_lt (load image 0x08 4)
  rw [length_load] at hlt
  unfold checkHeader at hheader
  split at hheader
  · cases hheader
  · split at hheader
    · cases hheader
    · split at hheader
      · cases hheader
      · split at hheader
        · cases hheader
        next heq => exact Nat.lt_of_le_of_lt (Nat.le_of_eq (not_not.mp heq).symm) hlt

/-- For every image that `dc_context_init` accepts and every directive, the operands are
read inside the image and the regions of a directive that succeeds are inside it
exactly when the ends that the handler computes are exact. -/
theorem operandsInImage_iff {imageSize : Nat} {config : DcConfig} {log : RecoveryLog}
    {ctx₀ : DcContext} (hinit : dcContextInit image imageSize config log = .ok ctx₀)
    (hsame : SameScript ctx₀ ctx) : OperandsInImage ctx dir ↔ EndsExact ctx dir := by
  have hsize : ctx.imageSize < 2 ^ 32 := by
    obtain ⟨hs, -, -, rfl⟩ := dcContextInit_eq_ok.mp hinit
    rw [hsame.imageSize]
    exact hs.size_lt
  constructor
  · intro h hops hlong hother hends r hr
    have hne : operandRegions ctx dir ≠ [] := List.ne_nil_of_mem hr
    have hok := execute_ok_iff.mpr ⟨hops, (dispatch_ok_iff hne).mpr ⟨hlong, hother, hends⟩⟩
    exact Nat.lt_of_le_of_lt (h.regions hok r hr) hsize
  · intro h
    refine ⟨fun a ha => operandReads_lt ha, fun image himage => execute_withImage himage,
      fun hok r hr => ?_⟩
    have hne : operandRegions ctx dir ≠ [] := List.ne_nil_of_mem hr
    obtain ⟨hops, hdispatch⟩ := execute_ok_iff.mp hok
    obtain ⟨hlong, hother, hends⟩ := (dispatch_ok_iff hne).mp hdispatch
    have hend := hends r hr
    rwa [Nat.mod_eq_of_lt (h hops hlong hother hends r hr)] at hend

/-- A script of one directive that logs a state, with a state that ends past `2 ^ 32`. -/
def wrappingScript : Mem := store (fun _ => 0) 0
  [76, 84, 78, 83, 1, 0, 128, 0, 144, 0, 0, 0, 104, 107, 31, 2,
   0, 160, 17, 0, 7, 0, 0, 0, 1, 0, 0, 0, 0, 0, 0, 0,
   0, 0, 0, 0, 128, 0, 0, 0, 128, 0, 0, 0, 128, 0, 0, 0,
   128, 0, 0, 0, 0, 0, 0, 0, 0, 0, 0, 0, 0, 0, 0, 0,
   0, 0, 0, 0, 0, 0, 0, 0, 0, 0, 0, 0, 0, 0, 0, 0,
   0, 0, 0, 0, 0, 0, 0, 0, 21, 63, 115, 62, 0, 0, 0, 0,
   240, 255, 255, 255, 32, 0, 0, 0, 0, 0, 0, 0, 0, 0, 0, 0,
   0, 0, 0, 0, 0, 0, 0, 0, 0, 0, 0, 0, 0, 0, 0, 0,
   3, 12, 0, 0, 96, 0, 0, 0, 0, 0, 0, 0, 0, 0, 0, 0]

def wrappingContext : DcContext := freshContext wrappingScript 144 plainConfig emptyLog

set_option maxRecDepth 8000 in
theorem wrappingContext_init :
    dcContextInit wrappingScript 144 plainConfig emptyLog = .ok wrappingContext := by
  have hh : checkHeader (readHeader wrappingScript) 144 = .ok () := by decide
  have hc : dcValidateHeaderChecksum (readHeader wrappingScript) wrappingScript = true := by
    rw [dcValidateHeaderChecksum, dcCrc32c, Crc.crc32c_eq]
    decide
  have hi : dcValidateImageChecksum (readHeader wrappingScript) wrappingScript 144 = true := by
    rw [dcValidateImageChecksum, dcCrc32cSkip, Crc.crc32c_eq]
    decide
  have ht : checkTables (readHeader wrappingScript) 144 = .ok () := by decide
  exact dcContextInit_eq_ok.mpr ⟨⟨hh, ht⟩, hc, hi, rfl⟩

set_option maxRecDepth 8000 in
/-- The first directive of the script succeeds, with a state of 32 bytes at
`0xFFFFFFF0`. -/
theorem region_wraps :
    dcContextInit wrappingScript 144 plainConfig emptyLog = .ok wrappingContext ∧
      0 < wrappingContext.header.directiveCount ∧
      (dcExecuteDirective wrappingContext (wrappingContext.directiveAt 0)).2 = .ok ∧
      operandRegions wrappingContext (wrappingContext.directiveAt 0) = [(0xFFFFFFF0, 32)] ∧
      ¬ OperandsInImage wrappingContext (wrappingContext.directiveAt 0) := by
  have hok : (dcExecuteDirective wrappingContext (wrappingContext.directiveAt 0)).2 = .ok := by
    decide
  have hregions : operandRegions wrappingContext (wrappingContext.directiveAt 0) =
      [(0xFFFFFFF0, 32)] := by
    decide
  refine ⟨wrappingContext_init, by decide, hok, hregions, fun h => ?_⟩
  have hend : 0xFFFFFFF0 + 32 ≤ 144 :=
    h.regions hok (0xFFFFFFF0, 32) (hregions ▸ List.mem_singleton_self _)
  exact absurd hend (by decide)

def headerDirective : DirectiveHeader :=
  { opcode := 0x03, operandSize := 12, conditionFlags := 0, operandOffset := 0x20
    checksumIndex := 0 }

set_option maxRecDepth 8000 in
theorem operandsInImage_header : OperandsInImage wrappingContext headerDirective := by
  refine (operandsInImage_iff wrappingContext_init (.refl _)).mpr fun _ _ _ _ r hr => ?_
  have hregions : operandRegions wrappingContext headerDirective = [(0, 128)] := by decide
  rw [hregions, List.mem_singleton] at hr
  rw [hr]
  decide

end Sentinel
