import WordTiles.Document.Host
import WordTiles.Board.Lemmas
import WordTiles.Play.Campaign
import WordTiles.Proofs.Movement.Order
import WordTiles.Proofs.Play.Chronicle
import WordTiles.Proofs.Play.Standstill
import WordTiles.Proofs.Level.RoundTrip
import WordTiles.Proofs.Level.Grammar
import WordTiles.Proofs.Level.Memory
import WordTiles.Proofs.Play.Journey
import WordTiles.Proofs.Play.Names
import WordTiles.Proofs.Rules.Tables
import WordTiles.Proofs.Rules.Reentry
import WordTiles.Proofs.Document.Saved
import WordTiles.Proofs.Movement.OneCell
import WordTiles.Proofs.Movement.Replay
import WordTiles.Proofs.Movement.Sinking
import WordTiles.Proofs.Movement.Image
import WordTiles.Proofs.Movement.Lanes
import WordTiles.Proofs.Rules.Judgement
import WordTiles.Proofs.Play.News
import WordTiles.Proofs.Play.Ledger
import WordTiles.Proofs.Level.Files
import WordTiles.Proofs.Board.Upkeep
import WordTiles.Proofs.Movement.Nesting
import WordTiles.Proofs.Level.Memory
