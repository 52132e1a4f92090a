import OCamlStudy.MiniRedis.Command
import OCamlStudy.MiniRedis.Grammar

/-! # Requests that raise

A request raises in one place: at a bulk string of a negative length other than
that of the null string, or of one so long that the end of its payload overflows.
-/

namespace OCamlStudy.MiniRedis

open OCaml

theorem decode_returns {b : Bytes} (hs : IsString b)
    (hno : ¬ ∃ counts b', Arrives counts b b' ∧ BadLength b') : ∃ r, decode b = .ok r := by
  rcases splits b with ⟨v, w, t, hv, rfl⟩ | ⟨counts, b', harrives, hstop⟩
  · exact ⟨_, hv.decode hs⟩
  rcases hstop with hstop | hstop | hstop
  · obtain ⟨msg, hmsg, -⟩ := hstop.decode
    exact ⟨_, (harrives.decode hs (by rw [hmsg]; nofun)).trans hmsg⟩
  · exact absurd ⟨counts, b', harrives, hstop⟩ hno
  · obtain ⟨msg, hmsg, -⟩ := hstop.decode
    exact ⟨_, (harrives.decode hs (by rw [hmsg]; nofun)).trans hmsg⟩

theorem decode_raises {counts : List ℤ} {b b' : Bytes} (hs : IsString b) (h : Arrives counts b b')
    (hbad : BadLength b') : decode b = .error (.invalidArgument "String.sub / Bytes.sub") := by
  have hb' := hbad.decode (hs.trans' h.suffix.length_le)
  exact (h.decode hs (by rw [hb']; nofun)).trans hb'

/-- **A request raises exactly if the decoder comes to a bad length.** -/
theorem handleRequest_returns_iff (store : Store) {b : Bytes} (hs : IsString b) :
    (∃ r, handleRequest store b = .ok r) ↔ ¬ ∃ counts b', Arrives counts b b' ∧ BadLength b' := by
  rw [handleRequest_eq]
  constructor
  · rintro ⟨r, hr⟩ ⟨counts, b', harrives, hbad⟩
    rw [decode_raises hs harrives hbad] at hr
    cases hr
  · intro hno
    obtain ⟨r, hr⟩ := decode_returns hs hno
    rw [hr]
    cases r with
    | ok p => exact ⟨_, rfl⟩
    | error msg => exact ⟨_, rfl⟩

/-- A length of minus five. -/
theorem handleRequest_returns_iff_negative : (∃ r, handleRequest ∅ (bytes "$-5\r\n") = .ok r) ↔
    ¬ ∃ counts b', Arrives counts (bytes "$-5\r\n") b' ∧ BadLength b' :=
  handleRequest_returns_iff ∅ (by unfold IsString maxStringLength; decide)

/-- **A client can make a request raise.** -/
theorem handleRequest_raises : ¬ ∀ (store : Store) (b : Bytes), IsString b →
    ∃ r, handleRequest store b = .ok r := by
  intro hall
  obtain ⟨r, hr⟩ := hall ∅ (bytes "$-5\r\n") (by unfold IsString maxStringLength; decide)
  cases hr

end OCamlStudy.MiniRedis
