import Mioto.UpdateFrame
import Mioto.TokenLinking
import Mioto.InFlight
import Mioto.EmailLinking
import Mioto.AuthDelivery
import Mioto.SignupRecord
import Mioto.Selectors
import Mioto.FriendsList
import Mioto.Session
import Mioto.StatusCallbacks
import Mioto.InteractionLock
import Mioto.StoredRecords
import Mioto.FacebookSignIn
import Mioto.EditDraft
import Mioto.FetchChain
import Mioto.Codec
import Mioto.JoinedDate
import Mioto.SignupGate
import Mioto.Navigation
import Mioto.Rest
import Mioto.Display
import Mioto.WellFormed
import Mioto.Secrecy
import Mioto.ImageCache
import Mioto.Pictures
import Mioto.ImageDisk
import Mioto.ImageRest
