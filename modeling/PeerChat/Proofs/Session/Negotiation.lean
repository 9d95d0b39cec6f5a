import PeerChat.Proofs.Wire.CallMessage
import PeerChat.Session.Negotiation

/-!
# Requests and answers are understood

What one side of a call sends is what the other reads: the request with its name, and the answer.
Neither reader takes a byte of what follows, and neither is done before the line is complete.
-/

namespace PeerChat

namespace Negotiation

variable {ended : Bool}

theorem request_eq (name : String) :
    request name = Utf8.encode ((CallMessage.request name).text ++ "\n") := Line.write_line _

theorem answer_true_eq : answer true = Utf8.encode (CallMessage.accept.text ++ "\n") :=
  Line.write_line _

theorem readRequest_request {name : String} (h : isName name = true) (rest : Bytes) :
    readRequest ended (request name ++ rest) = .done (name, rest) := by
  rw [readRequest, request_eq, Line.read_encode (CallMessage.fits_request h)]
  simp only [CallMessage.parse_request h]

theorem readRequest_waiting {name : String} (h : isName name = true) {data rest : Bytes}
    (hr : rest ≠ []) (hd : data ++ rest = request name) : readRequest false data = .waiting := by
  rw [request_eq] at hd
  rw [readRequest, Line.read_incomplete (CallMessage.fits_request h) hr hd]

theorem readVerdict_accept (rest : Bytes) :
    readVerdict ended (answer true ++ rest) = .done (.accepted rest) := by
  rw [readVerdict, answer_true_eq, Line.read_encode CallMessage.fits_accept]
  simp only [CallMessage.parse_accept]

theorem readVerdict_waiting {data rest : Bytes} (hr : rest ≠ [])
    (hd : data ++ rest = answer true) : readVerdict false data = .waiting := by
  rw [answer_true_eq] at hd
  rw [readVerdict, Line.read_incomplete CallMessage.fits_accept hr hd]

end Negotiation

end PeerChat
