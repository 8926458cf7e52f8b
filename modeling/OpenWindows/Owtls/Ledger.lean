import OpenWindows.Owtls.Connection

/-!
# The outbound ledger

A history is a ledger of the outbound half.  On the one side are the records the protocol
called for and those that were framed, on the other the bytes that were framed and those the
transport took.  `Accounts` says that the bytes agree with the pending record, and `Owed` which
records have still to be framed.  A write moves one record from owed to framed, or finishes the
pending one.
-/

namespace Owtls

variable {E : Type}

/-- The bytes the transport took. -/
def handedBytes (log : List Event) : List UInt8 :=
  log.flatMap fun e => match e with
    | .handed bytes => bytes
    | _ => []

def framedBytes (log : List Event) : List UInt8 :=
  log.flatMap fun e => match e with
    | .framed _ bytes => bytes
    | _ => []

def framedRecords (log : List Event) : List Plain :=
  log.filterMap fun e => match e with
    | .framed r _ => some r
    | _ => none

/-- The records the protocol called for. -/
def dueRecords (log : List Event) : List Plain :=
  log.filterMap fun e => match e with
    | .due r => some r
    | _ => none

/-- A record in full: the header with the length of the body, and the body, which is the payload
unless it is encrypted. -/
def Complete (r : Plain) (bytes : List UInt8) : Prop :=
  ∃ body, bytes = header r.contentType body.length ++ body ∧ body.length ≤ maxCiphertext ∧
    (r.encrypt = false → body = r.payload)

/-- A piece whose write is resumed when the transport refused it. -/
def Piece.Resumable : Piece → Prop
  | .keyExchange | .fragment true | .closeNotify => False
  | _ => True

instance (piece : Piece) : Decidable piece.Resumable :=
  match piece with
  | .keyExchange | .fragment true | .closeNotify => isFalse id
  | .clientHello | .cipherSpec | .finished | .fragment false => isTrue trivial

/-- The condition on what the transport and the cipher hook do: nothing is refused while a piece
that is not resumed is pending, and the hook encrypts what it is given. -/
def Event.Resumable : Event → Prop
  | .refused piece => piece.Resumable
  | .unsealed _ => False
  | _ => True

instance (e : Event) : Decidable e.Resumable :=
  match e with
  | .refused piece => inferInstanceAs (Decidable piece.Resumable)
  | .unsealed _ => isFalse id
  | .due _ | .framed _ _ | .handed _ | .sent _ | .received _ _ | .accepted _ _ _ _
  | .delivered _ _ => isTrue trivial

/-! ## Reading the ledger -/

section Ledger

variable (log log' : List Event) (r : Plain) (bytes : List UInt8) (piece : Piece)

@[simp] theorem handedBytes_append :
    handedBytes (log ++ log') = handedBytes log ++ handedBytes log' := List.flatMap_append
@[simp] theorem framedBytes_append :
    framedBytes (log ++ log') = framedBytes log ++ framedBytes log' := List.flatMap_append
@[simp] theorem framedRecords_append :
    framedRecords (log ++ log') = framedRecords log ++ framedRecords log' := List.filterMap_append
@[simp] theorem dueRecords_append :
    dueRecords (log ++ log') = dueRecords log ++ dueRecords log' := List.filterMap_append

theorem handedBytes_chunks (chunks : List (List UInt8)) :
    handedBytes (chunks.map .handed) = chunks.flatten := by
  induction chunks with
  | nil => rfl
  | cons c cs ih => simpa [handedBytes] using ih

theorem framedBytes_chunks (chunks : List (List UInt8)) :
    framedBytes (chunks.map .handed) = [] := by
  simp [framedBytes]

theorem framedRecords_chunks (chunks : List (List UInt8)) :
    framedRecords (chunks.map .handed) = [] := by
  simp [framedRecords]

theorem dueRecords_chunks (chunks : List (List UInt8)) :
    dueRecords (chunks.map .handed) = [] := by
  simp [dueRecords]

theorem dueRecords_due (rs : List Plain) : dueRecords (rs.map .due) = rs := by
  simp [dueRecords]

end Ledger

/-- Events that are in none of the four columns. -/
def Event.Silent : Event → Prop
  | .due _ | .framed _ _ | .handed _ => False
  | _ => True

/-- What a history that grows by silent events keeps. -/
structure SameLedger (log log' : List Event) : Prop where
  handed : handedBytes log' = handedBytes log
  framed : framedBytes log' = framedBytes log
  records : framedRecords log' = framedRecords log
  due : dueRecords log' = dueRecords log
  mem : ∀ r bytes, .framed r bytes ∈ log' → .framed r bytes ∈ log

theorem SameLedger.of_silent (log : List Event) {es : List Event} (h : ∀ e ∈ es, e.Silent) :
    SameLedger log (log ++ es) := by
  have hnil : handedBytes es = [] ∧ framedBytes es = [] ∧ framedRecords es = [] ∧
      dueRecords es = [] := by
    induction es with
    | nil => exact ⟨rfl, rfl, rfl, rfl⟩
    | cons e es ih =>
      have hrest := ih fun e he => h e (List.mem_cons_of_mem _ he)
      have hsilent := h e List.mem_cons_self
      cases e <;> first | exact absurd hsilent id | exact hrest
  obtain ⟨h1, h2, h3, h4⟩ := hnil
  refine ⟨by simp [h1], by simp [h2], by simp [h3], by simp [h4], ?_⟩
  intro r bytes hmem
  cases List.mem_append.mp hmem with
  | inl hmem => exact hmem
  | inr hmem => exact absurd (h _ hmem) id

/-! ## The accounts -/

/-- The bytes taken and the pending rest make up the framed records, each of which is whole. -/
structure Accounts (m : Machine E) : Prop where
  inOrder : handedBytes m.log ++ m.unsent = framedBytes m.log
  complete : ∀ r bytes, .framed r bytes ∈ m.log → Complete r bytes

/-- The records that are called for and not framed. -/
def Owed (m : Machine E) (rs : List Plain) : Prop := framedRecords m.log ++ rs = dueRecords m.log

/-- Nothing is pending and these records are owed. -/
structure Clear (m : Machine E) (rs : List Plain) : Prop where
  accounts : Accounts m
  empty : m.conn.writeBuf = []
  owed : Owed m rs

/-- A record is pending and these records are owed. -/
structure Stuck (m : Machine E) (rs : List Plain) : Prop where
  accounts : Accounts m
  pending : m.conn.writeBuf ≠ []
  owed : Owed m rs

/-- A write of this record is called for: it is the next to be framed, or it is pending. -/
def Stage (m : Machine E) (r : Plain) (rest : List Plain) : Prop := Clear m (r :: rest) ∨ Stuck m rest

/-- Only the buffer and the sequence number of the outbound half change. -/
def SameConn (c c' : Conn) : Prop :=
  ∃ seq buf off, c' = { c with sendSeq := seq, writeBuf := buf, txOff := off }

/-- Every event so far meets the condition. -/
def Settles (log : List Event) : Prop := ∀ e ∈ log, e.Resumable

instance (log : List Event) : Decidable (Settles log) :=
  inferInstanceAs (Decidable (∀ e ∈ log, e.Resumable))

theorem Settles.of_append {log es : List Event} (h : Settles (log ++ es)) : Settles log :=
  fun e he => h e (List.mem_append_left es he)

variable {m m' : Machine E} {r : Plain} {rs rest : List Plain}

theorem Accounts.keep (h : Accounts m) (hlog : SameLedger m.log m'.log)
    (hunsent : m'.unsent = m.unsent) : Accounts m' := by
  refine ⟨?_, fun r bytes hmem => h.complete r bytes (hlog.mem r bytes hmem)⟩
  rw [hlog.handed, hlog.framed, hunsent]
  exact h.inOrder

theorem Owed.keep (h : Owed m rs) (hlog : SameLedger m.log m'.log) : Owed m' rs := by
  rw [Owed, hlog.records, hlog.due]
  exact h

theorem Clear.keep (h : Clear m rs) (hlog : SameLedger m.log m'.log)
    (hbuf : m'.conn.writeBuf = m.conn.writeBuf) : Clear m' rs := by
  have hempty : m'.conn.writeBuf = [] := hbuf.trans h.empty
  refine ⟨h.accounts.keep hlog ?_, hempty, h.owed.keep hlog⟩
  simp [Machine.unsent, hempty, h.empty]

theorem Stuck.keep (h : Stuck m rs) (hlog : SameLedger m.log m'.log)
    (hbuf : m'.conn.writeBuf = m.conn.writeBuf) (hoff : m'.conn.txOff = m.conn.txOff) :
    Stuck m' rs := by
  refine ⟨h.accounts.keep hlog ?_, hbuf ▸ h.pending, h.owed.keep hlog⟩
  rw [Machine.unsent, hbuf, hoff, Machine.unsent]

theorem Clear.call (h : Clear m rs) (rs' : List Plain) :
    Clear (m.noteAll (rs'.map .due)) (rs ++ rs') := by
  have hmem : ∀ r bytes, Event.framed r bytes ∈ m.log ++ rs'.map .due → .framed r bytes ∈ m.log := by
    intro r bytes hmem
    simpa using hmem
  have hcols : handedBytes (rs'.map .due) = [] ∧ framedBytes (rs'.map .due) = [] ∧
      framedRecords (rs'.map .due) = [] := by
    clear hmem
    induction rs' with
    | nil => exact ⟨rfl, rfl, rfl⟩
    | cons r rs' ih => exact ih
  obtain ⟨h1, h2, h3⟩ := hcols
  refine ⟨⟨?_, fun r bytes hf => h.accounts.complete r bytes (hmem r bytes hf)⟩, h.empty, ?_⟩
  · have hin := h.accounts.inOrder
    rw [Machine.unsent] at hin ⊢
    simpa [h1, h2] using hin
  · have howed := h.owed
    rw [Owed] at howed ⊢
    simp [h3, dueRecords_due, ← howed]

/-! ## A write -/

/-- A transport that takes any part of what it is offered. -/
def Accepts (w : World E) : Prop := ∀ e data, (w.transport.send e data).2 ≠ none

theorem flushLoop_status {w : World E} (hw : Accepts w) (fuel : Nat) (m : Machine E) :
    (flushLoop w fuel m).1 ≠ .errTransport := by
  induction fuel generalizing m with
  | zero => nofun
  | succ fuel ih =>
    unfold flushLoop
    split
    · split
      next env hs => exact absurd (congrArg Prod.snd hs) (hw _ _)
      · nofun
      · exact ih _
    · nofun

theorem flush_books {w : World E} (hw : Accepts w) (h : Settles m.log → Stuck m rs) :
    Yields Event.Resumable (fun st m' => Settles m.log ∧ SameConn m.conn m'.conn ∧
      (st = .ok ∧ Clear m' rs ∨ st = .wantWrite ∧ Stuck m' rs ∧ m.piece.Resumable))
      (flush w m) := by
  have hstatus : (flush w m).1 ≠ .errTransport := flushLoop_status hw _ m
  have hflush := flush_cases w m
  generalize flush w m = res at hflush hstatus
  intro hok
  cases hflush with
  | out env chunks hchunks =>
    have hs := Settles.of_append hok
    obtain ⟨⟨hin, hcomplete⟩, -, howed⟩ := h hs
    refine ⟨hs, ⟨m.conn.sendSeq, [], 0, rfl⟩, .inl ⟨rfl, ⟨?_, ?_⟩, rfl, ?_⟩⟩
    · simp only [handedBytes_append, handedBytes_chunks, hchunks, framedBytes_append,
        framedBytes_chunks]
      simpa [Machine.unsent, handedBytes, framedBytes] using hin
    · intro r bytes hmem
      exact hcomplete r bytes (by simpa using hmem)
    · rw [Owed] at howed ⊢
      simp only [framedRecords_append, framedRecords_chunks, dueRecords_append, dueRecords_chunks]
      simpa [framedRecords, dueRecords] using howed
  | refused env chunks n hchunks hlt =>
    have hs := Settles.of_append hok
    obtain ⟨⟨hin, hcomplete⟩, hne, howed⟩ := h hs
    have hpiece : m.piece.Resumable :=
      hok (.refused m.piece) (List.mem_append_right _ (List.mem_append_right _ (.head _)))
    refine ⟨hs, ⟨m.conn.sendSeq, m.conn.writeBuf, _, rfl⟩,
      .inr ⟨rfl, ⟨⟨?_, ?_⟩, hne, ?_⟩, hpiece⟩⟩
    · have hrest : m.unsent.drop n = m.conn.writeBuf.drop (m.conn.txOff + n) := by
        rw [Machine.unsent, List.drop_drop]
      simp only [handedBytes_append, handedBytes_chunks, hchunks, framedBytes_append,
        framedBytes_chunks, Machine.unsent]
      rw [← Machine.unsent, ← hrest]
      simpa [handedBytes, framedBytes] using hin
    · intro r bytes hmem
      exact hcomplete r bytes (by simpa using hmem)
    · rw [Owed] at howed ⊢
      simp only [framedRecords_append, framedRecords_chunks, dueRecords_append, dueRecords_chunks]
      simpa [framedRecords, dueRecords] using howed
  | failed env chunks n hchunks hlt => exact absurd rfl hstatus

theorem Framed.stuck {piece : Piece} {st : Status} (hf : Framed m piece r (st, m'))
    (rest : List Plain) (hlen : Settles m.log → r.payload.length ≤ maxPlaintext) :
    (st = .ok → m'.piece = piece ∧ SameConn m.conn m'.conn ∧ (Settles m'.log → Settles m.log) ∧
      (Clear m (r :: rest) → Stuck m' rest)) ∧
      (st ≠ .ok → ¬ Settles m'.log) := by
  cases hf with
  | framed env seq body hbody hplain =>
    refine ⟨fun _ => ⟨rfl, ⟨seq, _, 0, rfl⟩, Settles.of_append, ?_⟩, fun h => absurd rfl h⟩
    rintro ⟨⟨hin, hcomplete⟩, hempty, howed⟩
    refine ⟨⟨?_, ?_⟩, by simp [header], ?_⟩
    · rw [Machine.unsent, hempty, List.drop_nil, List.append_nil] at hin
      simp only [handedBytes_append, framedBytes_append, Machine.unsent, List.drop_zero, hin]
      simp [handedBytes, framedBytes]
    · intro r' bytes hmem
      cases List.mem_append.mp hmem with
      | inl hmem => exact hcomplete r' bytes hmem
      | inr hmem =>
        cases List.mem_singleton.mp hmem
        exact ⟨body, rfl, hbody, hplain⟩
    · rw [Owed] at howed ⊢
      simp only [framedRecords_append, dueRecords_append]
      simpa [framedRecords, dueRecords] using howed
  | long hlong => exact ⟨fun h => (by cases h), fun _ hs => absurd hlong (Nat.not_lt.mpr (hlen hs))⟩
  | unsealed env =>
    refine ⟨fun h => (by cases h), fun _ hs => ?_⟩
    exact hs (.unsealed r) (List.mem_append_right _ (List.mem_singleton.mpr rfl))

theorem SameConn.trans {a b c : Conn} (h1 : SameConn a b) (h2 : SameConn b c) : SameConn a c := by
  obtain ⟨seq, buf, off, rfl⟩ := h1
  obtain ⟨seq', buf', off', rfl⟩ := h2
  exact ⟨seq', buf', off', rfl⟩

theorem writeRecord_books {w : World E} (hw : Accepts w) (piece : Piece)
    (h : Settles m.log → r.payload.length ≤ maxPlaintext ∧ Stage m r rest) :
    Yields Event.Resumable (fun st m' => Settles m.log ∧ SameConn m.conn m'.conn ∧
      (st = .ok ∧ Clear m' rest ∨
        st = .wantWrite ∧ Stuck m' rest ∧ (m.conn.writeBuf = [] → piece.Resumable)))
      (writeRecord w m piece r) := by
  unfold writeRecord
  split
  next hempty =>
    have hframe := frame_cases w m piece r
    split
    next m1 heq =>
      rw [heq] at hframe
      obtain ⟨hp, hsame, hset, hstuck⟩ := (hframe.stuck rest fun hs => (h hs).1).1 rfl
      have hclear : Settles m.log → Clear m (r :: rest) := fun hs =>
        (h hs).2.resolve_right fun hst => hst.pending hempty
      refine (flush_books hw fun hs => hstuck (hclear (hset hs))).mono ?_
      rintro st m2 ⟨hs, hsame', hres⟩
      refine ⟨hset hs, hsame.trans hsame', hres.imp_right ?_⟩
      rintro ⟨hst, hstuck', hpiece⟩
      exact ⟨hst, hstuck', fun _ => hp ▸ hpiece⟩
    next st m1 hne heq =>
      rw [heq] at hframe
      exact fun hs => absurd hs ((hframe.stuck rest fun hs => (h hs).1).2 hne)
  next hne =>
    have hstuck : Settles m.log → Stuck m rest := fun hs =>
      (h hs).2.resolve_left fun hcl => hne hcl.empty
    refine (flush_books hw hstuck).mono ?_
    rintro st m2 ⟨hs, hsame, hres⟩
    refine ⟨hs, hsame, hres.imp_right ?_⟩
    rintro ⟨hst, hstuck', -⟩
    exact ⟨hst, hstuck', fun h0 => absurd h0 hne⟩

end Owtls
